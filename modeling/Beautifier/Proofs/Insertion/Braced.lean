/-
Tokens with some of their bodies in braces.

Braces around bodies are put in position by position (`weave`), so tokens
without a body are passed over (`braced_behind`), lists with bodies of their
own are braced one by one (`braced_append`), and a body that is a whole list
stands around what is inside it (`braced_wrap`).
-/
import Beautifier.Proofs.Insertion.Weave

namespace Beautifier.BraceInsertion

variable {starts ends starts' ends' : List Nat} {found inner : List (Nat × Nat)}
  {ts us : List Token} {n : Nat}

/-- The tokens with braces around the bodies `found`.  The first token is at `n`. -/
def braced (found : List (Nat × Nat)) (n : Nat) (ts : List Token) : List Token :=
  weave (found.map (·.1)) (found.map (·.2)) n ts

/-- All bodies lie between two positions. -/
def Within (found : List (Nat × Nat)) (first behind : Nat) : Prop :=
  ∀ b ∈ found, first ≤ b.1 ∧ b.1 ≤ b.2 ∧ b.2 < behind

theorem weave_append :
    weave starts ends n (ts ++ us)
      = weave starts ends n ts ++ weave starts ends (n + ts.length) us := by
  induction ts generalizing n with
  | nil => rfl
  | cons t ts ih =>
      have hpos : n + (t :: ts).length = n + 1 + ts.length := by rw [List.length_cons]; omega
      simp only [List.cons_append, weave, ih, hpos, List.append_assoc]

theorem weave_congr
    (hstarts : ∀ p, n ≤ p → p < n + ts.length → starts.count p = starts'.count p)
    (hends : ∀ p, n ≤ p → p < n + ts.length → ends.count p = ends'.count p) :
    weave starts ends n ts = weave starts' ends' n ts := by
  induction ts generalizing n with
  | nil => rfl
  | cons t ts ih =>
      have hlength : (t :: ts).length = ts.length + 1 := List.length_cons
      have htail : weave starts ends (n + 1) ts = weave starts' ends' (n + 1) ts :=
        ih (fun p hp hlt => hstarts p (by omega) (by omega))
          (fun p hp hlt => hends p (by omega) (by omega))
      rw [weave, weave, hstarts n (by omega) (by omega), hends n (by omega) (by omega), htail]

theorem weave_nil : weave [] [] n ts = ts := by
  induction ts generalizing n with
  | nil => rfl
  | cons t ts ih =>
      rw [weave, ih]
      rfl

theorem weave_cons_start {t : Token} :
    weave (n :: starts) ends n (t :: ts) = openingBrace :: weave starts ends n (t :: ts) := by
  have hrest : weave (n :: starts) ends (n + 1) ts = weave starts ends (n + 1) ts :=
    weave_congr (fun p hp _ => List.count_cons_of_ne (by omega)) fun _ _ _ => rfl
  rw [weave, weave, hrest, List.count_cons_self, List.replicate_succ, List.cons_append]

theorem weave_cons_end {e : Nat} (he : e + 1 = n + ts.length) (hne : n ≤ e) :
    weave starts (e :: ends) n ts = weave starts ends n ts ++ [closingBrace] := by
  induction ts generalizing n with
  | nil => exact absurd he (by rw [List.length_nil]; omega)
  | cons t ts ih =>
      rw [List.length_cons] at he
      rcases Nat.eq_or_lt_of_le hne with rfl | hlt
      · have hnil : ts = [] := List.length_eq_zero_iff.mp (by omega)
        subst hnil
        simp only [weave, List.count_cons_self, List.replicate_succ', List.append_nil,
          List.append_assoc, List.cons_append]
      · have htail := ih (n := n + 1) (by omega) (by omega)
        simp only [weave, htail, List.count_cons_of_ne (show e ≠ n by omega), List.append_assoc,
          List.cons_append]

theorem count_map_eq_zero {f : Nat × Nat → Nat} {p : Nat} (h : ∀ b ∈ found, f b ≠ p) :
    (found.map f).count p = 0 := by
  rw [List.count_eq_zero]
  intro hmem
  obtain ⟨b, hb, rfl⟩ := List.mem_map.mp hmem
  exact h b hb rfl

theorem braced_congr_left (h : ∀ b ∈ inner, n + ts.length ≤ b.1 ∧ b.1 ≤ b.2) :
    braced (found ++ inner) n ts = braced found n ts := by
  refine weave_congr (fun p _ hp => ?_) (fun p _ hp => ?_)
  · have hnone : (inner.map (·.1)).count p = 0 := count_map_eq_zero fun b hb => by
      have := h b hb
      omega
    rw [List.map_append, List.count_append, hnone, Nat.add_zero]
  · have hnone : (inner.map (·.2)).count p = 0 := count_map_eq_zero fun b hb => by
      have := h b hb
      omega
    rw [List.map_append, List.count_append, hnone, Nat.add_zero]

theorem braced_congr_right (h : ∀ b ∈ found, b.1 ≤ b.2 ∧ b.2 < n) :
    braced (found ++ inner) n ts = braced inner n ts := by
  refine weave_congr (fun p hp _ => ?_) (fun p hp _ => ?_)
  · have hnone : (found.map (·.1)).count p = 0 := count_map_eq_zero fun b hb => by
      have := h b hb
      omega
    rw [List.map_append, List.count_append, hnone, Nat.zero_add]
  · have hnone : (found.map (·.2)).count p = 0 := count_map_eq_zero fun b hb => by
      have := h b hb
      omega
    rw [List.map_append, List.count_append, hnone, Nat.zero_add]

theorem braced_append (h : Within found n (n + ts.length))
    (hinner : ∀ b ∈ inner, n + ts.length ≤ b.1 ∧ b.1 ≤ b.2) :
    braced (found ++ inner) n (ts ++ us)
      = braced found n ts ++ braced inner (n + ts.length) us := by
  have hfound : ∀ b ∈ found, b.1 ≤ b.2 ∧ b.2 < n + ts.length := fun b hb => (h b hb).2
  rw [braced, weave_append, ← braced, ← braced, braced_congr_left hinner,
    braced_congr_right hfound]

theorem braced_nil : braced [] n ts = ts := weave_nil

theorem braced_behind {k : Nat} (hk : ts.length = k)
    (h : ∀ b ∈ found, n + k ≤ b.1 ∧ b.1 ≤ b.2) :
    braced found n (ts ++ us) = ts ++ braced found (n + k) us := by
  subst hk
  rw [← List.nil_append found, braced_append (fun b hb => absurd hb List.not_mem_nil) h,
    braced_nil, List.nil_append]

theorem braced_before (h : Within found n (n + ts.length)) :
    braced found n (ts ++ us) = braced found n ts ++ us := by
  rw [← List.append_nil found, braced_append h (fun b hb => absurd hb List.not_mem_nil),
    braced_nil, List.append_nil]

theorem braced_wrap {e : Nat} (he : e + 1 = n + ts.length) (hne : n ≤ e) :
    braced ((n, e) :: found) n ts = openingBrace :: braced found n ts ++ [closingBrace] := by
  cases ts with
  | nil => exact absurd he (by rw [List.length_nil]; omega)
  | cons t ts =>
      rw [braced, List.map_cons, List.map_cons, weave_cons_start, weave_cons_end he hne]
      rfl

end Beautifier.BraceInsertion
