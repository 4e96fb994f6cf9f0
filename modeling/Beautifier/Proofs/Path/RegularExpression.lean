/-
Patterns as regular expressions.

The constructs of regular expressions that a pattern is written with are read
(`Regex.read?`) and given the meaning that their documentation gives them:
an expression finds a text if it spans a part of it, wherever that part
stands (`Regex.Finds`).  The regular expression of a pattern can be read, and
it finds exactly the texts that the pattern accepts from their start to their
end (`exists_ofString?_regex`).
-/
import Beautifier.Proofs.Path.Matching

namespace Beautifier.Path

inductive Regex where
  | empty
  /-- The start of the text. -/
  | atStart
  /-- The end of the text. -/
  | atEnd
  | char (c : Char)
  /-- Any character but one. -/
  | notChar (c : Char)
  /-- Any character but a line feed. -/
  | dot
  | seq (r s : Regex)
  | star (r : Regex)
  | optional (r : Regex)
deriving DecidableEq, Repr

namespace Regex

/-! ## Reading -/

/-- Items, the last one first, as one expression. -/
def ofItems (items : List Regex) : Regex := items.foldl (fun r item => .seq item r) .empty

/-- The characters that do not stand for themselves between brackets. -/
def classCharacters : List Char := ['[', ']', '^', '-', '&', '~', '\\']

/-- Reads an expression behind items, the last one first, of the group that is open, and the items
in front of each open group, the innermost first. -/
def read? : List (List Regex) → List Regex → List Char → Option Regex
  | outer, items, [] => if outer.isEmpty then some (ofItems items) else none
  | outer, items, '(' :: '?' :: ':' :: rest => read? (items :: outer) [] rest
  | outer, items, ')' :: rest =>
      match outer with
      | [] => none
      | before :: outer => read? outer (ofItems items :: before) rest
  | outer, items, '*' :: rest =>
      match items with
      | [] => none
      | r :: items => read? outer (.star r :: items) rest
  | outer, items, '?' :: rest =>
      match items with
      | [] => none
      | r :: items => read? outer (.optional r :: items) rest
  | outer, items, '[' :: '^' :: c :: ']' :: rest =>
      if classCharacters.contains c then none else read? outer (.notChar c :: items) rest
  | outer, items, '[' :: c :: ']' :: rest =>
      if classCharacters.contains c then none else read? outer (.char c :: items) rest
  | outer, items, '.' :: rest => read? outer (.dot :: items) rest
  | outer, items, '^' :: rest => read? outer (.atStart :: items) rest
  | outer, items, '$' :: rest => read? outer (.atEnd :: items) rest
  | outer, items, '\\' :: c :: rest =>
      if Pattern.metaCharacters.contains c then read? outer (.char c :: items) rest else none
  | outer, items, c :: rest =>
      if Pattern.metaCharacters.contains c then none else read? outer (.char c :: items) rest

def ofString? (text : String) : Option Regex := read? [] [] text.toList

/-! ## Meaning -/

/-- Parts of a text one behind the other, each of which is spanned where it stands. -/
inductive Repeats (spans : List Char → List Char → List Char → Prop) :
    List Char → List Char → List Char → Prop
  | done (a b : List Char) : Repeats spans a [] b
  | more {a u v b : List Char} :
      spans a u (v ++ b) → Repeats spans (a ++ u) v b → Repeats spans a (u ++ v) b

/-- Whether an expression spans a part of a text between what stands in front of it and behind
it. -/
def Spans : Regex → List Char → List Char → List Char → Prop
  | .empty, _, u, _ => u = []
  | .atStart, a, u, _ => a = [] ∧ u = []
  | .atEnd, _, u, b => u = [] ∧ b = []
  | .char c, _, u, _ => u = [c]
  | .notChar d, _, u, _ => ∃ c, u = [c] ∧ c ≠ d
  | .dot, _, u, _ => ∃ c, u = [c] ∧ c ≠ '\n'
  | .seq r s, a, u, b => ∃ v w, u = v ++ w ∧ r.Spans a v (w ++ b) ∧ s.Spans (a ++ v) w b
  | .star r, a, u, b => Repeats r.Spans a u b
  | .optional r, a, u, b => u = [] ∨ r.Spans a u b

/-- An expression finds a text if it spans some part of it. -/
def Finds (r : Regex) (text : List Char) : Prop :=
  ∃ a u b, text = a ++ u ++ b ∧ r.Spans a u b

/-- What spans any character but one, repeated, spans the texts without that character. -/
theorem repeats_iff {spans : List Char → List Char → List Char → Prop} {d : Char}
    (hspans : ∀ a u b, spans a u b ↔ ∃ c, u = [c] ∧ c ≠ d) {a u b : List Char} :
    Repeats spans a u b ↔ d ∉ u := by
  constructor
  · intro h
    induction h with
    | done => exact List.not_mem_nil
    | more hu _ ih =>
        obtain ⟨c, rfl, hc⟩ := (hspans _ _ _).mp hu
        exact List.not_mem_cons_of_ne_of_not_mem (Ne.symm hc) ih
  · intro h
    induction u generalizing a with
    | nil => exact .done a b
    | cons c u ih =>
        obtain ⟨hc, hu⟩ := List.ne_and_not_mem_of_not_mem_cons h
        exact .more ((hspans _ _ _).mpr ⟨c, rfl, Ne.symm hc⟩) (ih hu)

/-! ## The elements of patterns -/

def ofPiece : PatternPiece → Regex
  | .anyDirectories => .optional (.seq (.star .dot) (.seq (.char '/') .empty))
  | .anyRun => .star (.notChar '/')
  | .anyChar => .dot
  | .literal c => .char c

theorem read?_of_not_mem {c : Char} (hc : c ∉ Pattern.metaCharacters)
    (outer : List (List Regex)) (items : List Regex) (rest : List Char) :
    read? outer items (c :: rest) = read? outer (.char c :: items) rest := by
  rw [read?]
  · exact if_neg (by simpa using hc)
  all_goals
    intros
    subst_vars
    exact hc (by decide)

theorem read?_escape (c : Char) (outer : List (List Regex)) (items : List Regex)
    (rest : List Char) :
    read? outer items (Pattern.escape c ++ rest) = read? outer (.char c :: items) rest := by
  rw [Pattern.escape]
  split
  next h =>
    subst h
    rfl
  next =>
    split
    next hmeta => exact if_pos hmeta
    next hmeta => exact read?_of_not_mem (by simpa using hmeta) outer items rest

theorem read?_pieceRegex (piece : PatternPiece) (outer : List (List Regex)) (items : List Regex)
    (rest : List Char) :
    read? outer items (Pattern.pieceRegex piece ++ rest) =
      read? outer (ofPiece piece :: items) rest := by
  cases piece with
  | anyDirectories => rfl
  | anyRun => rfl
  | anyChar => rfl
  | literal c => exact read?_escape c outer items rest

theorem spans_ofPiece {piece : PatternPiece} {a u b : List Char} :
    (ofPiece piece).Spans a u b ↔ Pattern.Stands piece u := by
  cases piece with
  | anyDirectories =>
      have hdots : ∀ a u b, Repeats Regex.dot.Spans a u b ↔ '\n' ∉ u :=
        fun _ _ _ => repeats_iff fun _ _ _ => Iff.rfl
      constructor
      · rintro (rfl | ⟨d, w, rfl, hd, v, e, rfl, rfl, rfl⟩)
        · exact .nowhere
        · exact .directories ((hdots _ _ _).mp hd)
      · intro h
        cases h with
        | nowhere => exact .inl rfl
        | directories hd => exact .inr ⟨_, _, rfl, (hdots _ _ _).mpr hd, _, [], rfl, rfl, rfl⟩
  | anyRun =>
      have hrun : Repeats (Regex.notChar '/').Spans a u b ↔ '/' ∉ u :=
        repeats_iff fun _ _ _ => Iff.rfl
      constructor
      · exact fun h => .run (hrun.mp h)
      · rintro ⟨⟩
        exact hrun.mpr ‹_›
  | anyChar =>
      constructor
      · rintro ⟨c, rfl, hc⟩
        exact .char hc
      · rintro ⟨⟩
        exact ⟨_, rfl, ‹_›⟩
  | literal c =>
      constructor
      · rintro rfl
        exact .literal c
      · rintro ⟨⟩
        rfl

/-! ## Patterns -/

/-- What a pattern is written as, behind the mark of the start. -/
def ofPattern : Pattern → Regex
  | [] => .seq .atEnd .empty
  | piece :: p => .seq (ofPiece piece) (ofPattern p)

theorem spans_ofPattern {p : Pattern} {a u b : List Char} :
    (ofPattern p).Spans a u b ↔ b = [] ∧ p.accepts u = true := by
  induction p generalizing a u b with
  | nil =>
      rw [Pattern.accepts_nil]
      constructor
      · rintro ⟨v, w, rfl, ⟨rfl, hb⟩, rfl⟩
        exact ⟨hb, rfl⟩
      · rintro ⟨rfl, rfl⟩
        exact ⟨[], [], rfl, ⟨rfl, rfl⟩, rfl⟩
  | cons piece p ih =>
      rw [Pattern.accepts_cons]
      constructor
      · rintro ⟨v, w, rfl, hv, hw⟩
        obtain ⟨rfl, haccepts⟩ := ih.mp hw
        exact ⟨rfl, v, w, rfl, spans_ofPiece.mp hv, haccepts⟩
      · rintro ⟨rfl, v, w, rfl, hv, hw⟩
        exact ⟨v, w, rfl, spans_ofPiece.mpr hv, ih.mpr ⟨rfl, hw⟩⟩

theorem finds_ofPattern {p : Pattern} {text : List Char} :
    (Regex.seq .atStart (ofPattern p)).Finds text ↔ p.accepts text = true := by
  constructor
  · rintro ⟨a, u, b, rfl, v, w, rfl, ⟨rfl, rfl⟩, hw⟩
    obtain ⟨rfl, haccepts⟩ := spans_ofPattern.mp hw
    simpa using haccepts
  · intro h
    exact ⟨[], text, [], by simp, [], text, rfl, ⟨rfl, rfl⟩, spans_ofPattern.mpr ⟨rfl, h⟩⟩

theorem read?_flatMap (p : Pattern) (items : List Regex) :
    read? [] items (p.flatMap Pattern.pieceRegex ++ ['$']) =
      some (items.foldl (fun r item => .seq item r) (ofPattern p)) := by
  induction p generalizing items with
  | nil => rfl
  | cons piece p ih =>
      rw [List.flatMap_cons, List.append_assoc, read?_pieceRegex, ih]
      rfl

/-- The regular expression of a pattern can be read, and finds what the pattern accepts. -/
theorem exists_ofString?_regex (p : Pattern) :
    ∃ r, ofString? p.regex = some r ∧ ∀ text, r.Finds text ↔ p.accepts text = true := by
  refine ⟨.seq .atStart (ofPattern p), ?_, fun text => finds_ofPattern⟩
  rw [ofString?, Pattern.regex, String.toList_ofList]
  exact read?_flatMap p [.atStart]

end Regex

end Beautifier.Path
