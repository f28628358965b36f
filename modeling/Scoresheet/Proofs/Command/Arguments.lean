import Scoresheet.Command.Invocation
import Scoresheet.Proofs.Fallible
/-!
# Arguments in front of a command line

A setup file can be named in front of any command line that names none, and nothing else that is
read changes by it. An empty name is refused.
-/
namespace Scoresheet.Command

open Fallible (bind_eq_ok)

namespace Invocation

variable {inv next final : Invocation} {arguments : List String} {path value : String}
  {option : ValueOption} {setup : Option String}

private theorem withInput_setup (h : inv.withInput path = .ok next) (hnone : next.setup = none) :
    inv.setup = none ∧ { inv with setup }.withInput path = .ok { next with setup } := by
  rw [withInput] at h
  split at h
  · cases h
  · next hfree =>
    cases h
    exact ⟨hnone, if_neg hfree⟩

private theorem withValue_setup (h : inv.withValue option value = .ok next)
    (hnone : next.setup = none) :
    inv.setup = none ∧
      { inv with setup }.withValue option value = .ok { next with setup } := by
  cases option with
  | log =>
    simp only [withValue] at h ⊢
    split at h
    · cases h
    · next hfree =>
      cases h
      exact ⟨hnone, if_neg hfree⟩
  | setup =>
    -- a value that is taken names a setup file
    simp only [withValue] at h
    split at h
    · cases h
    · cases h
      cases hnone

private theorem takeInputs_setup (h : inv.takeInputs arguments = .ok final)
    (hnone : final.setup = none) :
    inv.setup = none ∧ { inv with setup }.takeInputs arguments = .ok { final with setup } := by
  induction arguments generalizing inv with
  | nil =>
    cases h
    exact ⟨hnone, rfl⟩
  | cons path rest ih =>
    obtain ⟨next, hnext, hrest⟩ := bind_eq_ok.mp h
    obtain ⟨hnext', htaken⟩ := ih hrest
    obtain ⟨hinv, hpath⟩ := withInput_setup hnext hnext'
    exact ⟨hinv, bind_eq_ok.mpr ⟨_, hpath, htaken⟩⟩

-- Where no setup file is named in the end, none is named on the way: the induction can ask for it.
private theorem take_setup (h : inv.take arguments = .ok final) (hnone : final.setup = none) :
    inv.setup = none ∧ { inv with setup }.take arguments = .ok { final with setup } := by
  fun_induction take inv arguments with
  | case1 inv =>
    cases h
    exact ⟨hnone, rfl⟩
  | case2 inv text rest path htext ih =>
    obtain ⟨next, hnext, hrest⟩ := bind_eq_ok.mp h
    obtain ⟨hnext', htaken⟩ := ih next hrest
    obtain ⟨hinv, hpath⟩ := withInput_setup hnext hnext'
    refine ⟨hinv, ?_⟩
    rw [take, htext]
    exact bind_eq_ok.mpr ⟨_, hpath, htaken⟩
  | case3 inv text rest htext =>
    rw [take, htext]
    exact takeInputs_setup h hnone
  | case5 inv text rest htext hbatch ih =>
    rw [take, htext]
    simp only [if_neg hbatch]
    exact ih h
  | case6 inv text rest times htext ih =>
    rw [take, htext]
    exact ih h
  | case7 inv text rest times option value htext ih =>
    obtain ⟨next, hnext, hrest⟩ := bind_eq_ok.mp h
    obtain ⟨hnext', htaken⟩ := ih next hrest
    obtain ⟨hinv, hvalue⟩ := withValue_setup hnext hnext'
    refine ⟨hinv, ?_⟩
    rw [take, htext]
    exact bind_eq_ok.mpr ⟨_, hvalue, htaken⟩
  | case9 inv text times option htext value rest hvalue ih =>
    obtain ⟨next, hnext, hrest⟩ := bind_eq_ok.mp h
    obtain ⟨hnext', htaken⟩ := ih next hrest
    obtain ⟨hinv, hgiven⟩ := withValue_setup hnext hnext'
    refine ⟨hinv, ?_⟩
    rw [take, htext]
    simp only [if_pos hvalue]
    exact bind_eq_ok.mpr ⟨_, hgiven, htaken⟩
  | case4 | case8 | case10 | case11 => cases h

end Invocation

/-- The arguments that name a setup file. A name that looks like an option has to be attached. -/
inductive NamesSetup (path : String) : List String → Prop where
  | attached : NamesSetup path ["--setup=" ++ path]
  | apart (h : Argument.isValue path) : NamesSetup path ["--setup", path]

variable {path : String} {given arguments : List String} {inv : Invocation}

private theorem ofText_attached (path : String) :
    Argument.ofText ("--setup=" ++ path) = .valued 0 .setup (some path) := by
  have hbody : ("--setup=" ++ path).toList =
      '-' :: '-' :: ("setup".toList ++ '=' :: path.toList) := by
    rw [String.toList_append]
    rfl
  rw [Argument.ofText, hbody]
  simp [Argument.ofLong]

private theorem NamesSetup.take_append (h : NamesSetup path given) :
    Invocation.bare.take (given ++ arguments) =
      if path = "" then .error .usageError
      else { Invocation.bare with setup := some path }.take arguments := by
  have hvalue : (Invocation.bare.louder 0).withValue .setup path =
      if path = "" then .error .usageError
      else .ok { Invocation.bare with setup := some path } := by
    simp [Invocation.withValue, Invocation.louder, Invocation.bare]
  have hbind : ((Invocation.bare.louder 0).withValue .setup path >>= fun inv => inv.take arguments) =
      if path = "" then .error .usageError
      else { Invocation.bare with setup := some path }.take arguments := by
    rw [hvalue]
    split <;> rfl
  cases h with
  | attached =>
    rw [List.singleton_append, Invocation.take, ofText_attached]
    exact hbind
  | apart hpath =>
    have hoption : Argument.ofText "--setup" = .valued 0 .setup none := by decide
    rw [List.cons_append, List.singleton_append, Invocation.take, hoption]
    simp only [if_pos hpath]
    exact hbind

theorem ofArguments_append_of_namesSetup (h : NamesSetup path given)
    (hread : Invocation.ofArguments arguments = .ok inv) (hnone : inv.setup = none) :
    Invocation.ofArguments (given ++ arguments) =
      if path = "" then .error .usageError else .ok { inv with setup := some path } := by
  rw [Invocation.ofArguments, h.take_append]
  split
  · rfl
  · exact (Invocation.take_setup hread hnone).2

end Scoresheet.Command
