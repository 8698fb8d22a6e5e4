/-
Rings: blocks `r0`, `r1`, … in one cycle over two values. Only `r0` reads `acc`, and
all the others hand `tmp` on.
-/
import LiveVars.Function.Draft

namespace LiveVars.Sample

/-- The value that only the first block of a ring reads. -/
def acc : ValueId := .ofIndex 0

/-- The value that every block of a ring defines. -/
def tmp : ValueId := .ofIndex 1

/-- The edits that fill block `i` of a ring and close it. -/
def ringBlock (len i : Nat) : List Edit :=
  [if i = 0 then .assign (.ofIndex i) .add [.value acc, .const (.int 1)] tmp
   else .assign (.ofIndex i) .mul [.value tmp, .const (.int 2)] tmp,
   .finish (.ofIndex i) (.br (.ofIndex ((i + 1) % len)))]

def ringEdits (len : Nat) : List Edit :=
  [.declare "acc", .declare "tmp"] ++ (List.range len).map (fun i => .addBlock s!"r{i}") ++
    (List.range len).flatMap (ringBlock len)

/-- The draft of a ring; the shortest one has a single block. -/
def ringDraft (len : Nat) : Draft := .ofEdits s!"ring_{max len 1}" (ringEdits (max len 1))

def ring (len : Nat) : Except Fault Function := (ringDraft len).build

end LiveVars.Sample
