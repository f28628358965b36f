/-!
# The opening position

The placements of the 32 pieces, as a setup file would give them.
-/
namespace Scoresheet.Opening

def lines : List String :=
  ["// White",
    "Rla1", "Nlb1", "Blc1", "Qld1", "Kle1", "Blf1", "Nlg1", "Rlh1",
    "Pla2", "Plb2", "Plc2", "Pld2", "Ple2", "Plf2", "Plg2", "Plh2",
    "// Black",
    "rda8", "ndb8", "bdc8", "qdd8", "kde8", "bdf8", "ndg8", "rdh8",
    "pda7", "pdb7", "pdc7", "pdd7", "pde7", "pdf7", "pdg7", "pdh7"]

def text : String := String.join (lines.map fun line => line ++ "\n")

end Scoresheet.Opening
