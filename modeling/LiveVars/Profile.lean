/-
Labels for runs, and a sink that keeps the label of the run under way. A label that
shows the shape of a function is made once for each shape and then looked up.
-/
import LiveVars.Trace

namespace LiveVars

/-! ## Labels -/

/-- A way to label runs, with a memory of its own. -/
structure Labeler (μ : Type) where
  initial : μ
  label : μ → Function → Option String × μ

/-- What a shape label shows of a function. -/
structure LabelKey where
  name : String
  blocks : Nat
  values : Nat
deriving DecidableEq

namespace LabelKey

def of (f : Function) : LabelKey := ⟨f.name, f.blockCount, f.valueCount⟩

def text (k : LabelKey) : String := s!"liveness:{k.name} blocks={k.blocks} values={k.values}"

end LabelKey

/-- The labels made so far, newest first. -/
abbrev LabelBook := List (LabelKey × String)

namespace LabelBook

def find? (book : LabelBook) (k : LabelKey) : Option String :=
  (List.find? (fun entry => entry.1 == k) book).map Prod.snd

/-- The label of a function, which enters the book if it is not there yet. -/
def label (book : LabelBook) (f : Function) : String × LabelBook :=
  match book.find? (.of f) with
  | some text => (text, book)
  | none =>
    let text := (LabelKey.of f).text
    (text, (.of f, text) :: book)

end LabelBook

namespace Labeler

/-- Gives no labels. -/
def plain : Labeler Unit := ⟨(), fun _ _ => (none, ())⟩

/-- Labels a run by the name and the size of its function. -/
def shape : Labeler LabelBook :=
  ⟨[], fun book f => let (text, book) := book.label f; (some text, book)⟩

end Labeler

/-- The label of a run that was given none. -/
def Function.plainLabel (f : Function) : String := s!"liveness:{f.name}"

/-! ## Profiles -/

/-- The memory of a labeler, and the label of the run under way if there is one. -/
structure Profile (μ : Type) where
  memory : μ
  run : Option String

namespace Profile

variable {μ : Type}

def start (labeler : Labeler μ) : Profile μ := ⟨labeler.initial, none⟩

def inRun (p : Profile μ) : Bool := p.run.isSome

/-- The first event of a run opens it, the last one closes it. A run that was left open ends when
the next one starts. -/
def receive (labeler : Labeler μ) (f : Function) : Event → Profile μ → Profile μ
  | .useDef _ _, p =>
    let (label, memory) := labeler.label p.memory f
    ⟨memory, some (label.getD f.plainLabel)⟩
  | .sweep _ _ _ _, p => p
  | .finished _, p => { p with run := none }

def sink (labeler : Labeler μ) : Sink (Profile μ) := ⟨.all, receive labeler⟩

def text (p : Profile μ) : String :=
  "ProfilingTraceSink \x7b in_run: " ++ (if p.inRun then "true" else "false") ++ ", .. \x7d"

end Profile

end LiveVars
