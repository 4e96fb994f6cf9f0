/-
What a reader sees behind a token.

A reader stops where the next character does not go on with the token, and to
know that it looks at the next character, and past it only behind a quote or
dot.  `Mirrors n` compares what stands behind a token in two sources: up to `n`
characters, those that could go on with some token stand in the first source
too.  White space, brackets, `;`, `,` and `#` never go on with a token, so
behind one of them anything may stand.
-/
import Beautifier.Proofs.Text.Lines
import Beautifier.Proofs.Token.Partition

namespace Beautifier

/-- Characters that are tokens of their own wherever they stand in code. -/
def isSolo (c : Char) : Bool :=
  ['(', ')', '[', ']', '\x7b', '\x7d', ';', ',', '#'].contains c

/-- Whether a character may go on with the token before it. -/
def mayGoOn (c : Char) : Bool := !isGapChar c && !isSolo c

/-- Whether a reader looks past a character before it goes on with it: a quote parts the digits of
a number only in front of another one, and two dots are no operator without a third. -/
def looksPast (c : Char) : Bool := c == '\x27' || c == '.'

/-- What a reader may see in the second source, `n` characters ahead, it sees in the first. -/
def Mirrors : Nat → List Glyph → List Glyph → Prop
  | n + 1, rest, .char c :: tail' =>
      mayGoOn c = true →
        ∃ tail, rest = .char c :: tail ∧ (looksPast c = true → Mirrors n tail tail')
  | _, _, _ => True

namespace Mirrors

variable {n : Nat} {rest rest' : List Glyph}

theorem of_atLineEnd (h : atLineEnd rest' = true) : Mirrors n rest rest' := by
  cases n with
  | zero => trivial
  | succ n =>
      cases rest' with
      | nil => trivial
      | cons g tail' =>
          cases g with
          | char c => cases h
          | lineBreak e => trivial

theorem of_not_mayGoOn {c : Char} {tail' : List Glyph} (h : mayGoOn c = false) :
    Mirrors n rest (.char c :: tail') := by
  cases n with
  | zero => trivial
  | succ n =>
      intro hc
      rw [h] at hc
      cases hc

theorem pred (h : Mirrors (n + 1) rest rest') : Mirrors n rest rest' := by
  induction n generalizing rest rest' with
  | zero => trivial
  | succ n ih =>
      cases rest' with
      | nil => trivial
      | cons g tail' =>
          cases g with
          | lineBreak e => trivial
          | char c =>
              intro hc
              obtain ⟨tail, rfl, htail⟩ := h hc
              exact ⟨tail, rfl, fun hpast => ih (htail hpast)⟩

theorem append (e : LineEnd) (gs : List Glyph) (h : Mirrors n rest rest') :
    Mirrors n (gs ++ rest) (gs.map (Glyph.withEnd e) ++ rest') := by
  induction gs generalizing n with
  | nil => exact h
  | cons g gs ih =>
      cases n with
      | zero => trivial
      | succ n =>
          cases g with
          | lineBreak _ => trivial
          | char c => exact fun _ => ⟨gs ++ rest, rfl, fun _ => ih h.pred⟩

theorem startsWith {p : Char → Bool} (h : Mirrors (n + 1) rest rest')
    (hp : ∀ c, p c = true → mayGoOn c = true) (hrest : Scanner.startsWith p rest' = true) :
    Scanner.startsWith p rest = true := by
  obtain ⟨c, tail', rfl, hc⟩ := Scanner.startsWith_eq_true.mp hrest
  obtain ⟨tail, rfl, -⟩ := h (hp c hc)
  exact hc

theorem not_startsWith {p : Char → Bool} (h : Mirrors (n + 1) rest rest')
    (hp : ∀ c, p c = true → mayGoOn c = true) (hrest : Scanner.startsWith p rest = false) :
    Scanner.startsWith p rest' = false := by
  rw [← Bool.not_eq_true] at hrest ⊢
  exact fun hrest' => hrest (h.startsWith hp hrest')

end Mirrors

/-! ## Characters that go on with a token -/

/-- The characters that never go on with a token. -/
theorem mem_of_not_mayGoOn {c : Char} (h : mayGoOn c = false) :
    c ∈ [' ', '\t', '\x0b', '\x0c', '(', ')', '[', ']', '\x7b', '\x7d', ';', ',', '#'] := by
  simp only [mayGoOn, isGapChar, isBlank, isSolo, Bool.and_eq_false_iff, Bool.not_eq_false',
    Bool.or_eq_true, beq_iff_eq, List.contains_iff_mem] at h
  rcases h with (((h | h) | h) | h) | h
  · simp [h]
  · simp [h]
  · simp [h]
  · simp [h]
  · exact List.mem_append_right [' ', '\t', '\x0b', '\x0c'] h

/-- A class that holds none of them goes on with a token. -/
theorem mayGoOn_of_class {p : Char → Bool} {c : Char} (hc : p c = true)
    (hp : [' ', '\t', '\x0b', '\x0c', '(', ')', '[', ']', '\x7b', '\x7d', ';', ',', '#'].any p
      = false) : mayGoOn c = true := by
  rw [← Bool.not_eq_false]
  intro h
  exact List.any_eq_false.mp hp c (mem_of_not_mayGoOn h) hc

theorem mayGoOn_of_isAlphanum {c : Char} (h : c.isAlphanum = true) : mayGoOn c = true :=
  mayGoOn_of_class h (by decide)

theorem mayGoOn_of_isDigit {c : Char} (h : c.isDigit = true) : mayGoOn c = true :=
  mayGoOn_of_class h (by decide)

theorem mayGoOn_of_isWordChar {c : Char} (h : Scanner.isWordChar c = true) :
    mayGoOn c = true :=
  mayGoOn_of_class h (by decide)

theorem mayGoOn_of_isNumberChar {c : Char} (h : Scanner.isNumberChar c = true) :
    mayGoOn c = true :=
  mayGoOn_of_class h (by decide)

theorem mayGoOn_of_beq {c d : Char} (hd : mayGoOn d = true) (h : (c == d) = true) :
    mayGoOn c = true := by
  rwa [eq_of_beq h]

end Beautifier
