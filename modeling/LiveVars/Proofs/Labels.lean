/-
Labels that show shapes. The book of labels is nothing but a memory: whatever functions it
was asked about, every label in it is the text of its key (`LabelBook.Faithful`). A label
that is looked up is therefore the one that would be made, and each call is answered as if
it were the first.

A text gives its key away. The counts are printed in digits, and the sign in front of
either is no digit, so a label can be read from its end: the last digits, the text before
them, the digits there. What is left is the name, whatever it may spell
(`LabelKey.text_inj`).
-/
import LiveVars.Profile

namespace LiveVars

/-! ## Reading a label from its end -/

/-- A text that ends in a number behind a sign that is no digit can be parted in one way only. -/
theorem eq_of_append_digits {c : Char} (hc : c.isDigit = false) {xs ys : List Char} {j k : Nat}
    (h : xs ++ c :: Nat.toDigits 10 j = ys ++ c :: Nat.toDigits 10 k) : xs = ys ∧ j = k := by
  have hnot : ∀ m, ¬ c ∈ Nat.toDigits 10 m := fun m hm => by
    rw [Nat.isDigit_of_mem_toDigits (by decide) (by decide) hm] at hc
    cases hc
  -- If one front part were longer, its sign would stand among the digits of the other number.
  have hsame : ∀ {zs : List Char} {l m : Nat}, c :: Nat.toDigits 10 l = zs ++ c :: Nat.toDigits 10 m → zs = [] := by
    intro zs l m hzs
    cases zs with
    | nil => rfl
    | cons z zs =>
      rw [List.cons_append, List.cons.injEq] at hzs
      exact absurd (hzs.2 ▸ List.mem_append_right zs List.mem_cons_self) (hnot l)
  have hfront : xs = ys := by
    rcases List.append_eq_append_iff.mp h with ⟨zs, rfl, hzs⟩ | ⟨zs, rfl, hzs⟩
    · rw [hsame hzs, List.append_nil]
    · rw [hsame hzs, List.append_nil]
  subst hfront
  have hdigits : Nat.toDigits 10 j = Nat.toDigits 10 k := (List.cons.inj (List.append_cancel_left h)).2
  refine ⟨rfl, ?_⟩
  rw [← @Nat.ofDigitChars_ten_toDigits j, hdigits, Nat.ofDigitChars_ten_toDigits]

namespace LabelKey

theorem toList_text (k : LabelKey) : k.text.toList =
    ("liveness:".toList ++ (k.name.toList ++ " blocks".toList) ++ '=' :: Nat.toDigits 10 k.blocks ++
      " values".toList) ++ '=' :: Nat.toDigits 10 k.values := by
  have hblocks : " blocks=".toList = " blocks".toList ++ ['='] := rfl
  have hvalues : " values=".toList = " values".toList ++ ['='] := rfl
  simp only [text, toString, String.toList_append, Nat.toList_repr, hblocks, hvalues, List.append_assoc,
    List.singleton_append]

/-- Two shapes have one label only if they are one. -/
theorem text_inj {k k' : LabelKey} : k.text = k'.text ↔ k = k' := by
  refine ⟨fun h => ?_, fun h => h ▸ rfl⟩
  have hchars := congrArg String.toList h
  rw [toList_text, toList_text] at hchars
  obtain ⟨hchars, hvalues⟩ := eq_of_append_digits (by decide) hchars
  obtain ⟨hchars, hblocks⟩ := eq_of_append_digits (by decide) (List.append_cancel_right hchars)
  have hname : k.name = k'.name :=
    String.toList_inj.mp (List.append_cancel_right (List.append_cancel_left hchars))
  cases k
  cases k'
  simp_all

theorem of_eq_of_iff {f g : Function} : of f = of g ↔
    f.name = g.name ∧ f.blockCount = g.blockCount ∧ f.valueCount = g.valueCount := by
  rw [of, of, LabelKey.mk.injEq]

end LabelKey

/-! ## What a book of labels holds -/

namespace LabelBook

variable {book : LabelBook}

/-- Every label in the book is the text of its key. -/
def Faithful (book : LabelBook) : Prop := ∀ entry ∈ book, entry.2 = entry.1.text

theorem Faithful.find? (h : book.Faithful) {k : LabelKey} {text : String} (hfind : book.find? k = some text) :
    text = k.text := by
  obtain ⟨entry, hentry, rfl⟩ := Option.map_eq_some_iff.mp hfind
  have hkey : entry.1 = k := by simpa using List.find?_some hentry
  rw [← hkey]
  exact h entry (List.mem_of_find?_eq_some hentry)

/-- A call is answered with the text of its key, and the book stays faithful. -/
theorem Faithful.label (h : book.Faithful) (f : Function) :
    (book.label f).1 = (LabelKey.of f).text ∧ (book.label f).2.Faithful := by
  unfold LabelBook.label
  split
  · rename_i text hfind
    exact ⟨h.find? hfind, h⟩
  · refine ⟨rfl, fun entry hentry => ?_⟩
    rcases List.mem_cons.mp hentry with rfl | hentry
    · rfl
    · exact h entry hentry

end LabelBook

/-! ## Calls in a row -/

namespace Labeler

/-- The labels of functions asked for in a row, with the memory handed on from call to call. -/
def labels {μ : Type} (labeler : Labeler μ) (memory : μ) : List Function → List (Option String)
  | [] => []
  | f :: fs => (labeler.label memory f).1 :: labels labeler (labeler.label memory f).2 fs

theorem labels_shape_of_faithful : ∀ {fs : List Function} {book : LabelBook}, book.Faithful →
    shape.labels book fs = fs.map fun f => some (LabelKey.of f).text
  | [], _, _ => rfl
  | f :: fs, book, h => by
    obtain ⟨htext, hbook⟩ := h.label f
    have hrest : shape.labels (book.label f).2 fs = _ := labels_shape_of_faithful hbook
    have hfirst : (shape.label book f).1 = some (book.label f).1 := rfl
    rw [List.map_cons, ← hrest, ← htext, ← hfirst]
    rfl

/-- **Labels depend on the shape alone.** Whatever functions a labeler by shape is asked about in a row, every
call is answered with a label, the one that a new labeler gives to that function; and two of the calls get the
same label exactly if their functions agree in name, number of blocks and number of values. -/
theorem labels_shape_eq_iff (fs : List Function) :
    let labels := shape.labels shape.initial fs
    labels.length = fs.length ∧
      (∀ i : Fin fs.length, ∃ text, labels[i.val]? = some (some text) ∧
        (shape.label shape.initial (fs.get i)).1 = some text) ∧
      ∀ i j : Fin fs.length, labels[i.val]? = labels[j.val]? ↔
        (fs.get i).name = (fs.get j).name ∧ (fs.get i).blockCount = (fs.get j).blockCount ∧
          (fs.get i).valueCount = (fs.get j).valueCount := by
  intro labels
  have hempty : LabelBook.Faithful [] := fun entry hentry => by cases hentry
  have hlabels : labels = fs.map fun f => some (LabelKey.of f).text := labels_shape_of_faithful hempty
  have hget : ∀ i : Fin fs.length, labels[i.val]? = some (some (LabelKey.of (fs.get i)).text) := by
    intro i
    rw [hlabels, List.getElem?_map, List.getElem?_eq_getElem i.isLt]
    rfl
  refine ⟨by rw [hlabels, List.length_map], fun i => ⟨_, hget i, ?_⟩, fun i j => ?_⟩
  · exact congrArg some (hempty.label (fs.get i)).1
  · rw [hget, hget, Option.some.injEq, Option.some.injEq, LabelKey.text_inj]
    exact LabelKey.of_eq_of_iff

end Labeler

end LiveVars
