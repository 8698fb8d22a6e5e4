/-
A shift-register generator of 64-bit numbers. A draw advances the state by one
`scramble` and answers with the new state, or with its remainder; a range with
nothing in it is reported after the state has moved.
-/
namespace LiveVars

structure Generator where
  state : UInt64
deriving DecidableEq

/-- Why a draw has no answer. -/
inductive DrawError where
  /-- The range asked for is empty. -/
  | emptyRange
  /-- The size of the range is no 64-bit word. -/
  | overflow
deriving DecidableEq

def DrawError.message : DrawError → String
  | emptyRange => "attempt to calculate the remainder with a divisor of zero"
  | overflow => "attempt to add with overflow"

namespace Generator

/-- Stands in for the seed 0, from which the generator would never move. -/
def defaultSeed : UInt64 := 0x9e3779b97f4a7c15

def ofSeed (seed : UInt64) : Generator := ⟨if seed = 0 then defaultSeed else seed⟩

/-- One step of the register: three shifts, each added back bit by bit. -/
def scramble (x : UInt64) : UInt64 :=
  let x := x ^^^ (x <<< 13)
  let x := x ^^^ (x >>> 7)
  x ^^^ (x <<< 17)

def advance (g : Generator) : Generator := ⟨scramble g.state⟩

def next (g : Generator) : UInt64 × Generator := (g.advance.state, g.advance)

def below (g : Generator) (bound : Nat) : Except DrawError Nat × Generator :=
  (if bound = 0 then .error .emptyRange else .ok (g.advance.state.toNat % bound), g.advance)

/-- Draws a truth value that is true once in `n` times. -/
def oneIn (g : Generator) (n : Nat) : Except DrawError Bool × Generator :=
  ((g.below n).1.map (· == 0), (g.below n).2)

end Generator

end LiveVars
