/-
Tabs and the spaces they stand for.

A tab is as wide as the spaces up to the next stop.  So with its tabs expanded
a text takes up the columns that it took up before, is trimmed alike and is
expanded no further.  `untab` expands a text line by line; where the ink of a
text stands, by line and column, can be told from what is left
(`inkPlaces_untab`).
-/
import Mathlib.Data.List.Induction
import Beautifier.Proofs.Text.Blanks
import Beautifier.Proofs.Text.Ink

namespace Beautifier

/-! ## One line -/

namespace Column

variable {w column : Nat} {text : List Char}

theorem lt_step (hw : 0 < w) (column : Nat) (c : Char) : column < step w column c := by
  rw [step]
  split
  · rw [Nat.mul_comm]
    exact Nat.lt_mul_div_succ column hw
  · exact Nat.lt_succ_self column

theorem le_advance (hw : 0 < w) (column : Nat) (text : List Char) :
    column ≤ advance w column text := by
  induction text generalizing column with
  | nil => exact Nat.le_refl column
  | cons c text ih => exact (lt_step hw column c).le.trans (ih _)

theorem advance_replicate_space (w column n : Nat) :
    advance w column (List.replicate n ' ') = column + n := by
  induction n generalizing column with
  | zero => rfl
  | succ n ih =>
      have hstep : step w column ' ' = column + 1 := rfl
      rw [List.replicate_succ, advance_cons, hstep, ih, Nat.add_assoc, Nat.add_comm 1]

theorem advance_blanks (width : Nat) (hwidth : 0 < width) (tabs spaces : Nat) :
    advance width 0 (List.replicate tabs '\t' ++ List.replicate spaces ' ')
      = tabs * width + spaces := by
  have htabs : ∀ column, advance width (column * width) (List.replicate tabs '\t')
      = (column + tabs) * width := by
    induction tabs with
    | zero => exact fun _ => rfl
    | succ tabs ih =>
        intro column
        have hstep : step width (column * width) '\t' = (column + 1) * width := by
          rw [step, if_pos rfl, Nat.mul_div_cancel _ hwidth]
        rw [List.replicate_succ, advance_cons, hstep, ih, Nat.add_assoc, Nat.add_comm 1]
  have hzero := htabs 0
  rw [Nat.zero_mul, Nat.zero_add] at hzero
  rw [advance_append, hzero, advance_replicate_space]

/-! ### Expanding -/

theorem expandTabs_append (w column : Nat) (s t : List Char) :
    expandTabs w column (s ++ t)
      = expandTabs w column s ++ expandTabs w (advance w column s) t := by
  induction s generalizing column with
  | nil => rfl
  | cons c s ih =>
      simp only [List.cons_append, expandTabs, ih, advance_cons]
      split
      · rw [List.append_assoc]
      · rfl

theorem expandTabs_of_noTab (h : '\t' ∉ text) : expandTabs w column text = text := by
  induction text generalizing column with
  | nil => rfl
  | cons c text ih =>
      rw [List.mem_cons, not_or] at h
      rw [expandTabs, if_neg (Ne.symm h.1), ih h.2]

theorem noTab_expandTabs (width column : Nat) (text : List Char) :
    '\t' ∉ expandTabs width column text := by
  induction text generalizing column with
  | nil => exact List.not_mem_nil
  | cons c text ih =>
      rw [expandTabs]
      split
      · rw [List.mem_append, not_or]
        refine ⟨fun hmem => ?_, ih _⟩
        exact absurd (List.mem_replicate.mp hmem).2 (by decide)
      · next hne =>
        rw [List.mem_cons, not_or]
        exact ⟨Ne.symm hne, ih _⟩

theorem expandTabs_expandTabs (w column column' : Nat) (text : List Char) :
    expandTabs w column' (expandTabs w column text) = expandTabs w column text :=
  expandTabs_of_noTab (noTab_expandTabs w column text)

theorem advance_expandTabs (hw : 0 < w) (column : Nat) (text : List Char) :
    advance w column (expandTabs w column text) = advance w column text := by
  induction text generalizing column with
  | nil => rfl
  | cons c text ih =>
      rw [expandTabs, advance_cons]
      split
      · have hlt := lt_step hw column c
        rw [advance_append, advance_replicate_space, Nat.add_sub_cancel' hlt.le, ih]
      · rw [advance_cons, ih]

/-- Blanks come to the spaces that are as wide. -/
theorem expandTabs_blanks (hw : 0 < w) {blanks : List Char}
    (h : ∀ c ∈ blanks, isBlank c = true) (column : Nat) :
    expandTabs w column blanks
      = List.replicate (advance w column blanks - column) ' ' := by
  induction blanks generalizing column with
  | nil => simp [expandTabs, advance_nil]
  | cons c blanks ih =>
      obtain ⟨hc, hblanks⟩ := List.forall_mem_cons.mp h
      have hlt := lt_step hw column c
      have hle := le_advance hw (step w column c) blanks
      have hwide : advance w column (c :: blanks) - column
          = (step w column c - column)
            + (advance w (step w column c) blanks - step w column c) := by
        rw [advance_cons]
        omega
      rw [expandTabs, ih hblanks, hwide, List.replicate_add]
      split
      · rfl
      · next hne =>
        have hspace : c = ' ' := by simpa [isBlank, hne] using hc
        have hstep : step w column ' ' - column = 1 := Nat.add_sub_cancel_left ..
        rw [hspace, hstep]
        rfl

theorem isEmpty_expandTabs (hw : 0 < w) (column : Nat) (text : List Char) :
    (expandTabs w column text).isEmpty = text.isEmpty := by
  cases text with
  | nil => rfl
  | cons c text =>
      rw [expandTabs]
      split
      · have hlt := lt_step hw column c
        obtain ⟨n, hn⟩ := Nat.exists_eq_add_of_lt hlt
        have hsub : step w column c - column = n + 1 := by omega
        rw [hsub]
        rfl
      · rfl

/-- It makes no difference whether the blanks at the end are cut off before tabs are expanded or
behind. -/
theorem expandTabs_trimRight (hw : 0 < w) (column : Nat) (text : List Char) :
    expandTabs w column (trimRight isBlank text)
      = trimRight isBlank (expandTabs w column text) := by
  induction text using List.reverseRecOn with
  | nil => rfl
  | append_singleton front c ih =>
      rw [expandTabs_append]
      by_cases hc : isBlank c = true
      · have hone : ∀ d ∈ [c], isBlank d = true := List.forall_mem_singleton.mpr hc
        have hspaces : ∀ d ∈ expandTabs w (advance w column front) [c], isBlank d = true := by
          intro d hd
          rw [expandTabs_blanks hw hone] at hd
          rw [(List.mem_replicate.mp hd).2]
          rfl
        rw [trimRight_append hone, trimRight_append hspaces, ih]
      · have hc : isBlank c = false := Bool.eq_false_iff.mpr hc
        have htab : '\t' ∉ [c] := by
          intro hmem
          rw [← List.mem_singleton.mp hmem] at hc
          cases hc
        rw [expandTabs_of_noTab htab, trimRight_concat hc, trimRight_concat hc,
          expandTabs_append, expandTabs_of_noTab htab]

end Column

theorem expandTabs_ne_nil {width : Nat} (hwidth : 0 < width) (column : Nat) {text : List Char}
    (h : text ≠ []) : Column.expandTabs width column text ≠ [] := by
  intro hnil
  have hempty := Column.isEmpty_expandTabs hwidth column text
  rw [hnil] at hempty
  exact h (List.isEmpty_iff.mp hempty.symm)

theorem forall_mem_expandTabs {q : Char → Prop} (hone : q ' ') {width : Nat} {text : List Char}
    (h : ∀ c ∈ text, q c) : ∀ column, ∀ c ∈ Column.expandTabs width column text, q c := by
  induction text with
  | nil => exact fun _ _ hc => absurd hc List.not_mem_nil
  | cons d rest ih =>
      intro column c hc
      have hrest := ih fun x hx => h x (List.mem_cons_of_mem _ hx)
      rw [Column.expandTabs] at hc
      split at hc
      · rcases List.mem_append.mp hc with hc | hc
        · rwa [(List.mem_replicate.mp hc).2]
        · exact hrest _ c hc
      · rcases List.mem_cons.mp hc with rfl | hc
        · exact h c List.mem_cons_self
        · exact hrest _ c hc

/-- The characters of an indentation take up its columns. -/
theorem Indent.advance_chars {width : Nat} (hwidth : 0 < width) (kind : IndentKind) (i : Indent) :
    Column.advance width 0 (i.chars kind width) = i.columns width := by
  cases kind with
  | spaces => exact (Column.advance_blanks width hwidth ..).trans (by simp)
  | tab => exact Column.advance_blanks width hwidth ..
  | forceTab => exact (Column.advance_blanks width hwidth ..).trans (Nat.div_add_mod' ..)

/-- However an indentation is written, it comes to the same spaces. -/
theorem Indent.expandTabs_chars {width : Nat} (hwidth : 0 < width) (kind : IndentKind)
    (i : Indent) :
    Column.expandTabs width 0 (i.chars kind width) = List.replicate (i.columns width) ' ' := by
  rw [Column.expandTabs_blanks hwidth isBlank_of_mem_indent, Indent.advance_chars hwidth,
    Nat.sub_zero]

/-! ## Many lines -/

/-- The glyphs of a text that starts at a column, each tab replaced by the spaces it stands for. -/
def untab (w : Nat) : Nat → List Glyph → List Glyph
  | _, [] => []
  | column, .char c :: rest =>
      (Column.expandTabs w column [c]).map .char ++ untab w (Column.step w column c) rest
  | _, .lineBreak e :: rest => .lineBreak e :: untab w 0 rest

/-- A place in a text: the number of line breaks in front of it, and the visual column. -/
structure Place where
  line : Nat
  column : Nat
deriving DecidableEq, Repr

namespace Place

def start : Place := ⟨0, 0⟩

def step (w : Nat) (p : Place) : Glyph → Place
  | .char c => { p with column := Column.step w p.column c }
  | .lineBreak _ => ⟨p.line + 1, 0⟩

def advance (w : Nat) (p : Place) (gs : List Glyph) : Place := gs.foldl (step w) p

end Place

/-- The places at which the characters of a text stand that are not white space. -/
def inkPlaces (w : Nat) : Place → List Glyph → List Place
  | _, [] => []
  | p, .char c :: rest =>
      if isSpace c then inkPlaces w (p.step w (.char c)) rest
      else p :: inkPlaces w (p.step w (.char c)) rest
  | p, .lineBreak e :: rest => inkPlaces w (p.step w (.lineBreak e)) rest

section
variable {w : Nat}

theorem untab_chars (w column : Nat) (cs : List Char) (gs : List Glyph) :
    untab w column (cs.map .char ++ gs)
      = (Column.expandTabs w column cs).map .char ++ untab w (Column.advance w column cs) gs := by
  induction cs generalizing column with
  | nil => rfl
  | cons c cs ih =>
      rw [List.map_cons, List.cons_append, untab, ih, ← List.append_assoc, ← List.map_append,
        ← List.singleton_append (l := cs), Column.expandTabs_append]
      rfl

theorem inkPlaces_append (w : Nat) (p : Place) (gs hs : List Glyph) :
    inkPlaces w p (gs ++ hs) = inkPlaces w p gs ++ inkPlaces w (p.advance w gs) hs := by
  induction gs generalizing p with
  | nil => rfl
  | cons g gs ih =>
      cases g with
      | char c =>
          rw [List.cons_append, inkPlaces, inkPlaces, ih]
          split <;> rfl
      | lineBreak e =>
          rw [List.cons_append, inkPlaces, inkPlaces, ih]
          rfl

/-- Every character that is not white space has its place. -/
theorem length_inkPlaces (w : Nat) (p : Place) (gs : List Glyph) :
    (inkPlaces w p gs).length = (ink (Glyph.charsOf gs)).length := by
  induction gs generalizing p with
  | nil => rfl
  | cons g gs ih =>
      rw [Glyph.charsOf_cons, ink_append, List.length_append]
      cases g with
      | char c =>
          rw [inkPlaces]
          cases hc : isSpace c with
          | true => simpa [Glyph.chars, ink, hc] using ih _
          | false => simpa [Glyph.chars, ink, hc, Nat.add_comm] using ih _
      | lineBreak e =>
          rw [inkPlaces, ih, Glyph.chars, ink_lineEnd, List.length_nil, Nat.zero_add]

/-- A character that is not white space stands behind the text in front of it. -/
theorem getElem?_inkPlaces {c : Char} (hc : isSpace c = false) (w : Nat) (p : Place)
    (front behind : List Glyph) :
    (inkPlaces w p (front ++ .char c :: behind))[(ink (Glyph.charsOf front)).length]?
      = some (p.advance w front) := by
  have hcons : inkPlaces w (p.advance w front) (.char c :: behind)
      = p.advance w front :: inkPlaces w ((p.advance w front).step w (.char c)) behind := by
    rw [inkPlaces, hc, if_neg Bool.false_ne_true]
  rw [inkPlaces_append, List.getElem?_append_right (length_inkPlaces w p front).le,
    length_inkPlaces, Nat.sub_self, hcons]
  rfl

theorem inkPlaces_spaces (w n : Nat) (p : Place) (gs : List Glyph) :
    inkPlaces w p ((List.replicate n ' ').map .char ++ gs)
      = inkPlaces w { p with column := p.column + n } gs := by
  induction n generalizing p with
  | zero => rfl
  | succ n ih =>
      have hspace : isSpace ' ' = true := rfl
      have hstep : p.step w (.char ' ') = { p with column := p.column + 1 } := rfl
      rw [List.replicate_succ, List.map_cons, List.cons_append, inkPlaces, if_pos hspace, hstep, ih,
        Nat.add_right_comm, Nat.add_assoc p.column]

/-- The ink of a text stands where it stands without the tabs. -/
theorem inkPlaces_untab (hw : 0 < w) (p : Place) (gs : List Glyph) :
    inkPlaces w p (untab w p.column gs) = inkPlaces w p gs := by
  induction gs generalizing p with
  | nil => rfl
  | cons g gs ih =>
      cases g with
      | lineBreak e => exact ih (p.step w (.lineBreak e))
      | char c =>
          have hrest := ih (p.step w (.char c))
          by_cases hc : c = '\t'
          · have hlt := Column.lt_step hw p.column c
            have hspaces : Column.expandTabs w p.column [c]
                = List.replicate (Column.step w p.column c - p.column) ' ' := by
              rw [Column.expandTabs, if_pos hc, Column.expandTabs, List.append_nil]
            have hplace : { p with column := p.column + (Column.step w p.column c - p.column) }
                = p.step w (.char c) := by
              rw [Nat.add_sub_cancel' hlt.le]
              rfl
            have hspace : isSpace c = true := by
              rw [hc]
              rfl
            rw [untab, hspaces, inkPlaces_spaces, hplace, inkPlaces, if_pos hspace]
            exact hrest
          · have hsame : Column.expandTabs w p.column [c] = [c] :=
              Column.expandTabs_of_noTab fun hmem => hc (List.mem_singleton.mp hmem).symm
            rw [untab, hsame, List.map_singleton, List.singleton_append, inkPlaces, inkPlaces]
            have hrest : inkPlaces w (p.step w (.char c)) (untab w (Column.step w p.column c) gs)
                = inkPlaces w (p.step w (.char c)) gs := hrest
            rw [hrest]

end

end Beautifier
