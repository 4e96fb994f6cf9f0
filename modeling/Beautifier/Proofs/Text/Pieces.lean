/-
Texts cut into pieces.

A text is cut at the characters of a class as the library cuts lists
(`pieces_eq_splitOnP`).  A text behind another one goes on with its last
piece (`pieces_append`); behind a character of the class it begins a new one
(`pieces_append_sep`).
-/
import Beautifier.Text.Blank

namespace Beautifier

variable {p : Char → Bool} {a b first last : List Char} {front others : List (List Char)} {c : Char}

theorem pieces_cons_of_mem (h : p c = true) : pieces p (c :: a) = [] :: pieces p a := by
  simp [pieces, piecesAt, h]

theorem pieces_cons_of_not_mem (h : p c = false) (ha : pieces p a = first :: others) :
    pieces p (c :: a) = (c :: first) :: others := by
  obtain ⟨rfl, rfl⟩ := List.cons.inj ha
  simp [pieces, piecesAt, h]

theorem pieces_eq_splitOnP (p : Char → Bool) (text : List Char) :
    pieces p text = text.splitOnP p := by
  induction text with
  | nil => rfl
  | cons c text ih =>
      rw [List.splitOnP_cons_eq_if_modifyHead, ← ih]
      cases hc : p c with
      | true => exact pieces_cons_of_mem hc
      | false => exact pieces_cons_of_not_mem hc rfl

theorem pieces_eq_splitOn (d : Char) (text : List Char) : pieces (· == d) text = text.splitOn d :=
  pieces_eq_splitOnP _ _

theorem exists_pieces (p : Char → Bool) (a : List Char) :
    ∃ front last, pieces p a = front ++ [last] :=
  ⟨_, _, (List.dropLast_concat_getLast (List.cons_ne_nil _ _)).symm⟩

theorem pieces_append (ha : pieces p a = front ++ [last]) (hb : pieces p b = first :: others) :
    pieces p (a ++ b) = front ++ (last ++ first) :: others := by
  induction a generalizing front last with
  | nil =>
      obtain ⟨rfl, rfl⟩ := List.append_singleton_inj.mp ((List.nil_append _).trans ha)
      exact hb
  | cons c a ih =>
      obtain ⟨front', last', ha'⟩ := exists_pieces p a
      cases hc : p c with
      | true =>
          rw [pieces_cons_of_mem hc, ha'] at ha
          obtain ⟨rfl, rfl⟩ := List.append_singleton_inj.mp ((List.cons_append ..).trans ha)
          rw [List.cons_append, pieces_cons_of_mem hc, ih ha', List.cons_append]
      | false =>
          cases front' with
          | nil =>
              rw [pieces_cons_of_not_mem hc ha'] at ha
              obtain ⟨rfl, rfl⟩ := List.append_singleton_inj.mp ((List.nil_append _).trans ha)
              exact pieces_cons_of_not_mem hc (ih ha')
          | cons x front' =>
              rw [pieces_cons_of_not_mem hc ha'] at ha
              obtain ⟨rfl, rfl⟩ := List.append_singleton_inj.mp ((List.cons_append ..).trans ha)
              exact pieces_cons_of_not_mem hc (ih ha')

theorem pieces_append_sep (a b : List Char) (hc : p c = true) :
    pieces p (a ++ c :: b) = pieces p a ++ pieces p b := by
  simp only [pieces_eq_splitOnP]
  exact List.splitOnP_append_cons _ _ hc

theorem pieces_of_forall_not (h : ∀ c ∈ a, p c = false) : pieces p a = [a] := by
  rw [pieces_eq_splitOnP]
  exact List.splitOnP_eq_singleton h

theorem of_mem_pieces {text piece : List Char} (hpiece : piece ∈ pieces p text) (hc : c ∈ piece) :
    c ∈ text ∧ p c = false := by
  induction text generalizing piece with
  | nil =>
      rw [List.mem_singleton.mp hpiece] at hc
      cases hc
  | cons d text ih =>
      cases hd : p d with
      | true =>
          rw [pieces_cons_of_mem hd, List.mem_cons] at hpiece
          rcases hpiece with rfl | hpiece
          · cases hc
          · exact (ih hpiece hc).imp_left (List.mem_cons_of_mem _)
      | false =>
          have hpieces : pieces p text = (piecesAt p text).1 :: (piecesAt p text).2 := rfl
          rw [pieces_cons_of_not_mem hd hpieces, List.mem_cons] at hpiece
          rcases hpiece with rfl | hpiece
          · rcases List.mem_cons.mp hc with rfl | hc
            · exact ⟨List.mem_cons_self, hd⟩
            · exact (ih List.mem_cons_self hc).imp_left (List.mem_cons_of_mem _)
          · exact (ih (List.mem_cons_of_mem _ hpiece) hc).imp_left (List.mem_cons_of_mem _)

theorem mem_of_mem_pieces {text piece : List Char} (hpiece : piece ∈ pieces p text)
    (hc : c ∈ piece) : c ∈ text :=
  (of_mem_pieces hpiece hc).1

/-! ## Pieces between one character -/

variable {d : Char} {text : List Char}

theorem not_mem_of_mem_splitOn {piece : List Char} (h : piece ∈ text.splitOn d) : d ∉ piece := by
  intro hd
  rw [← pieces_eq_splitOn] at h
  simpa using (of_mem_pieces h hd).2

theorem splitOn_injective (d : Char) {a b : List Char} (h : a.splitOn d = b.splitOn d) : a = b :=
  calc
    a = [d].intercalate (a.splitOn d) := (List.intercalate_splitOn d).symm
    _ = [d].intercalate (b.splitOn d) := by rw [h]
    _ = b := List.intercalate_splitOn d

theorem length_splitOn : (text.splitOn d).length = text.count d + 1 := by
  induction text with
  | nil => rfl
  | cons c text ih =>
      rw [List.splitOn_cons_eq_if_modifyHead]
      split
      next hc => rw [beq_iff_eq.mp hc, List.length_cons, ih, List.count_cons_self]
      next hc =>
        have hne : c ≠ d := fun heq => hc (beq_iff_eq.mpr heq)
        rw [List.length_modifyHead, ih, List.count_cons_of_ne hne]

theorem of_splitOn_eq_singleton {piece : List Char} (h : text.splitOn d = [piece]) :
    text = piece ∧ d ∉ piece := by
  refine ⟨?_, not_mem_of_mem_splitOn (h ▸ List.mem_cons_self)⟩
  calc
    text = [d].intercalate (text.splitOn d) := (List.intercalate_splitOn d).symm
    _ = piece := by rw [h, List.intercalate_singleton]

/-- Where pieces are parted, so is the text. -/
theorem exists_of_splitOn_eq_append {xs ys : List (List Char)} (h : text.splitOn d = xs ++ ys)
    (hxs : xs ≠ []) (hys : ys ≠ []) :
    ∃ u v, text = u ++ d :: v ∧ u.splitOn d = xs ∧ v.splitOn d = ys := by
  have hpieces : ∀ piece ∈ xs ++ ys, d ∉ piece :=
    fun piece hpiece => not_mem_of_mem_splitOn (h ▸ hpiece)
  have hu : ([d].intercalate xs).splitOn d = xs :=
    List.splitOn_intercalate d (fun x hx => hpieces x (List.mem_append_left _ hx)) hxs
  have hv : ([d].intercalate ys).splitOn d = ys :=
    List.splitOn_intercalate d (fun y hy => hpieces y (List.mem_append_right _ hy)) hys
  refine ⟨_, _, splitOn_injective d ?_, hu, hv⟩
  rw [h, List.splitOn_append_cons_self, hu, hv]

end Beautifier
