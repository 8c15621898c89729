import Formula.Number.Double

/-!
# Random numbers

The numbers of a generator, which an evaluation draws one after the other. What the generator is, is left open: nothing
depends on the numbers that it gives.
-/

namespace Formula

/-- The numbers that a generator gives, and how many of them have been drawn. -/
structure Draws where
  source : Nat → Double
  drawn : Nat

namespace Draws

/-- The number that is drawn next. -/
def next (d : Draws) : Double := d.source d.drawn

/-- The draws after it. -/
def step (d : Draws) : Draws := { d with drawn := d.drawn + 1 }

/-- No number of the generator has been drawn. -/
def start (source : Nat → Double) : Draws := ⟨source, 0⟩

instance : Inhabited Draws := ⟨start fun _ => 0⟩

end Draws

end Formula
