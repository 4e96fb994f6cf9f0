/-
Options files that name each other.

The loop that takes options has no end exactly if no option that is reached
is faulty, and some options file that is reached leads back to itself
(`ends_iff`).  A chain of options that is longer than there are files passes
one file twice: whatever it reaches is reached by a shorter chain too, and
there is a circle.  So the number of files bounds the rounds, and the bounded
loop ends as the loop does wherever that ends.
-/
import Mathlib.Algebra.Group.Nat.Defs
import Mathlib.Data.Finset.Card
import Beautifier.Proofs.Text.Utf8
import Beautifier.Proofs.Tool.Places
import Beautifier.Proofs.Tool.Rounds

namespace Beautifier

/-! ## How much is included -/

theorem length_flatten_pieces_le (p : Char → Bool) (text : List Char) :
    (pieces p text).flatten.length ≤ text.length := by
  induction text with
  | nil => exact Nat.le_refl 0
  | cons c rest ih =>
      rw [pieces, List.flatten_cons, List.length_append] at ih
      rw [pieces, piecesAt, List.length_cons]
      by_cases hp : p c = true
      · simp only [hp, if_true, List.flatten_cons, List.nil_append, List.length_append]
        omega
      · simp only [hp, Bool.false_eq_true, if_false, List.flatten_cons, List.length_append,
          List.length_cons]
        omega

theorem countP_le_length_flatten (texts : List (List Char)) :
    texts.countP (!·.isEmpty) ≤ texts.flatten.length := by
  induction texts with
  | nil => exact Nat.le_refl 0
  | cons text texts ih =>
      rw [List.flatten_cons, List.length_append]
      cases text with
      | nil => simpa using ih
      | cons c rest =>
          simp only [List.countP_cons, List.isEmpty_cons, Bool.not_false, if_true,
            List.length_cons]
          omega

/-- A text has no more lines that count than characters. -/
theorem length_significantLines_le (text : String) :
    (significantLines text).length ≤ text.toList.length := by
  have hempty : ∀ line : List Char, (!(trim line).isEmpty) = true → (!line.isEmpty) = true := by
    intro line
    cases line with
    | nil => exact fun h => h
    | cons => exact fun _ => rfl
  calc (significantLines text).length
      ≤ (pieces (· == '\n') text.toList).countP (fun line => !(trim line).isEmpty) := by
        rw [significantLines, List.length_map, ← List.countP_eq_length_filter, List.countP_map]
        exact List.Sublist.countP_le List.filter_sublist
    _ ≤ (pieces (· == '\n') text.toList).countP (!·.isEmpty) :=
        List.countP_mono_left fun line _ => hempty line
    _ ≤ (pieces (· == '\n') text.toList).flatten.length := countP_le_length_flatten _
    _ ≤ text.toList.length := length_flatten_pieces_le _ _

theorem Utf8.length_le_encode (text : String) : text.toList.length ≤ (encode text).length := by
  rw [encode_eq]
  induction text.toList with
  | nil => exact Nat.le_refl 0
  | cons c cs ih =>
      have hc := String.length_utf8EncodeChar c
      have hpos := c.utf8Size_pos
      rw [List.flatMap_cons, List.length_append, List.length_cons]
      omega

namespace FileTree

variable {t : FileTree} {path : String} {lines : List String}

/-- The lines that count of the file at a place, if it is a text. -/
def linesAt (t : FileTree) (l : Location) : List String :=
  match t.file? l with
  | some bytes =>
      match Utf8.decode bytes with
      | .ok text => significantLines text
      | .error _ => []
  | none => []

theorem lines_eq_ok (h : t.lines path = .ok lines) : ∃ l, t.locate path = .ok l ∧
    (t.file? l).isSome = true ∧ lines = t.linesAt l := by
  rw [FileTree.lines, readText] at h
  cases hread : t.read path with
  | error e =>
      rw [hread] at h
      cases h
  | ok bytes =>
      obtain ⟨l, hlocate, hfile⟩ := read_eq_ok_iff.mp hread
      rw [hread] at h
      cases hdecode : Utf8.decode bytes with
      | error offset => simp [hdecode] at h
      | ok text =>
          refine ⟨l, hlocate, by rw [hfile]; rfl, ?_⟩
          simp only [hdecode, Except.ok.injEq] at h
          rw [linesAt, hfile]
          dsimp only
          rw [hdecode, ← h]

theorem length_le_size {name : String} {bytes : List UInt8} (h : (name, bytes) ∈ t.files) :
    bytes.length ≤ t.size := by
  rw [size]
  generalize t.files = files at h ⊢
  induction files with
  | nil => cases h
  | cons f files ih =>
      rw [List.foldr_cons]
      rcases List.mem_cons.mp h with rfl | h
      · exact Nat.le_add_right _ _
      · exact Nat.le_trans (ih h) (Nat.le_add_left _ _)

theorem length_linesAt_le (t : FileTree) (l : Location) : (t.linesAt l).length ≤ t.size := by
  rw [linesAt]
  split
  · next bytes hfile =>
    split
    · next text hdecode =>
      obtain ⟨f, hf, rfl⟩ := Option.map_eq_some_iff.mp hfile
      have hbytes := length_le_size (List.mem_of_find?_eq_some hf)
      rw [← Utf8.decode_eq_ok_iff.mp hdecode] at hbytes
      exact Nat.le_trans (length_significantLines_le text)
        (Nat.le_trans (Utf8.length_le_encode text) hbytes)
    · exact Nat.zero_le _
  · exact Nat.zero_le _

end FileTree

namespace Intake

variable {t : FileTree} {options : List String} {a b : String} {n : Nat}

/-- The place of the options file that an option names, if there is a path to it. -/
def target? (t : FileTree) (option : String) : Option Location :=
  if (splitOption option).1 = "options" then
    (splitOption option).2.bind fun path => (t.locate path).toOption
  else none

/-- What an option includes depends on the file that it names, not on how it names it. -/
theorem included_of_ne_nil (h : included t a ≠ []) : ∃ l, target? t a = some l ∧
    (t.file? l).isSome = true ∧ included t a = t.linesAt l := by
  rw [included] at h ⊢
  split at h
  · next hname =>
    rw [if_pos hname, target?, if_pos hname]
    cases hvalue : (splitOption a).2 with
    | none => simp [hvalue] at h
    | some path =>
        cases hlines : t.lines path with
        | error e => simp [hvalue, hlines, Except.toOption] at h
        | ok lines =>
            obtain ⟨l, hlocate, hfile, heq⟩ := FileTree.lines_eq_ok hlines
            exact ⟨l, by simp [hlocate, Except.toOption], hfile,
              by simp [hlines, Except.toOption, heq]⟩
  · exact absurd rfl h

theorem length_included_le (t : FileTree) (a : String) : (included t a).length ≤ t.size := by
  by_cases h : included t a = []
  · rw [h]
    exact Nat.zero_le _
  · obtain ⟨l, -, -, heq⟩ := included_of_ne_nil h
    rw [heq]
    exact t.length_linesAt_le l

theorem length_flatMap_included_le (t : FileTree) (options : List String) :
    (options.flatMap (included t)).length ≤ options.length * t.size := by
  induction options with
  | nil => exact Nat.zero_le _
  | cons a options ih =>
      have ha := length_included_le t a
      rw [List.flatMap_cons, List.length_append, List.length_cons, Nat.succ_mul]
      omega

theorem before_le (t : FileTree) (n : Nat) (options : List String) :
    before t n options ≤ options.length * (t.size + 1) ^ n := by
  induction n generalizing options with
  | zero => exact Nat.zero_le _
  | succ n ih =>
      calc before t (n + 1) options
          ≤ options.length + (options.flatMap (included t)).length * (t.size + 1) ^ n :=
            Nat.add_le_add_left (ih _) _
        _ ≤ options.length + options.length * t.size * (t.size + 1) ^ n :=
            Nat.add_le_add_left (Nat.mul_le_mul_right _ (length_flatMap_included_le t options)) _
        _ = options.length * (1 + t.size * (t.size + 1) ^ n) := by
            rw [Nat.mul_add, Nat.mul_one, Nat.mul_assoc]
        _ ≤ options.length * (t.size + 1) ^ (n + 1) := by
            refine Nat.mul_le_mul_left _ ?_
            have hpos : 1 ≤ (t.size + 1) ^ n := Nat.one_le_pow _ _ (Nat.succ_pos _)
            rw [Nat.pow_succ, Nat.mul_succ, Nat.mul_comm _ t.size]
            omega

/-! ## What is reached -/

/-- An option names an options file with a line that is another option. -/
def Includes (t : FileTree) (a b : String) : Prop := b ∈ included t a

/-- An option is one of these, or options files lead from one of these to it. -/
def Reached (t : FileTree) (options : List String) (a : String) : Prop :=
  ∃ b ∈ options, Relation.ReflTransGen (Includes t) b a

theorem mem_round_succ (hb : b ∈ round t n options) (h : Includes t b a) :
    a ∈ round t (n + 1) options := by
  rw [round_succ]
  exact List.mem_flatMap.mpr ⟨b, hb, h⟩

/-- A chain that starts in a round has a link in each of the following rounds. -/
theorem mem_round_chain {c : Nat → String} {i d : Nat} (hi : c i ∈ round t n options)
    (hc : ∀ k, i ≤ k → k < i + d → Includes t (c k) (c (k + 1))) :
    c (i + d) ∈ round t (n + d) options := by
  induction d with
  | zero => exact hi
  | succ d ih =>
      have hprev := ih fun k hik hk => hc k hik (Nat.lt_succ_of_lt hk)
      exact mem_round_succ hprev (hc (i + d) (Nat.le_add_right i d) (Nat.lt_succ_self _))

/-- An option in a round stands at the end of a chain with a link in each round before it. -/
theorem exists_chain (h : a ∈ round t n options) :
    ∃ c : Nat → String, c 0 ∈ options ∧ c n = a ∧ ∀ k < n, Includes t (c k) (c (k + 1)) := by
  induction n generalizing a with
  | zero => exact ⟨fun _ => a, h, rfl, fun k hk => absurd hk (Nat.not_lt_zero k)⟩
  | succ n ih =>
      rw [round_succ] at h
      obtain ⟨b, hb, hba⟩ := List.mem_flatMap.mp h
      obtain ⟨c, hstart, hend, hc⟩ := ih hb
      refine ⟨fun k => if k ≤ n then c k else a, hstart, if_neg (Nat.not_succ_le_self n), ?_⟩
      intro k hk
      have hkn : k ≤ n := Nat.le_of_lt_succ hk
      dsimp only
      rw [if_pos hkn]
      rcases Nat.lt_or_eq_of_le hkn with hlt | rfl
      · rw [if_pos (Nat.succ_le_of_lt hlt)]
        exact hc k hlt
      · rw [if_neg (Nat.not_succ_le_self k), hend]
        exact hba

theorem reflTransGen_chain {c : Nat → String} {i d : Nat}
    (hc : ∀ k, i ≤ k → k < i + d → Includes t (c k) (c (k + 1))) :
    Relation.ReflTransGen (Includes t) (c i) (c (i + d)) := by
  induction d with
  | zero => exact .refl
  | succ d ih =>
      refine (ih fun k hik hk => hc k hik (Nat.lt_succ_of_lt hk)).tail ?_
      exact hc (i + d) (Nat.le_add_right i d) (Nat.lt_succ_self _)

theorem reached_iff_exists_round : Reached t options a ↔ ∃ n, a ∈ round t n options := by
  constructor
  · rintro ⟨b, hb, hba⟩
    induction hba with
    | refl => exact ⟨0, hb⟩
    | tail _ h ih =>
        obtain ⟨n, hn⟩ := ih
        exact ⟨n + 1, mem_round_succ hn h⟩
  · rintro ⟨n, hn⟩
    obtain ⟨c, hstart, rfl, hc⟩ := exists_chain hn
    refine ⟨c 0, hstart, ?_⟩
    have hchain := reflTransGen_chain (c := c) (i := 0) (d := n)
      fun k _ hk => hc k (Nat.zero_add n ▸ hk)
    rwa [Nat.zero_add] at hchain

/-! ## Chains longer than there are files -/

theorem target?_mem (h : included t a ≠ []) :
    target? t a ∈ (t.files.map fun f => some (Location.ofPath f.1)).toFinset := by
  obtain ⟨l, htarget, hfile, -⟩ := included_of_ne_nil h
  obtain ⟨bytes, hbytes⟩ := Option.isSome_iff_exists.mp hfile
  obtain ⟨f, hf, -⟩ := Option.map_eq_some_iff.mp hbytes
  have hplace : Location.ofPath f.1 = l := eq_of_beq (List.find?_some hf :)
  rw [List.mem_toFinset, List.mem_map, htarget]
  exact ⟨f, List.mem_of_find?_eq_some hf, congrArg some hplace⟩

theorem included_congr (ha : included t a ≠ []) (hb : included t b ≠ [])
    (h : target? t a = target? t b) : included t a = included t b := by
  obtain ⟨l, hl, -, heq⟩ := included_of_ne_nil ha
  obtain ⟨l', hl', -, heq'⟩ := included_of_ne_nil hb
  have hplaces : l = l' := Option.some.inj (hl.symm.trans (h.trans hl'))
  rw [heq, heq', hplaces]

/-- A chain with more links than there are files passes one file twice. -/
theorem exists_repeat {c : Nat → String} (hn : t.files.length < n)
    (hc : ∀ k < n, Includes t (c k) (c (k + 1))) :
    ∃ i j, i < j ∧ j < n ∧ included t (c i) = included t (c j) := by
  have hnil : ∀ k < n, included t (c k) ≠ [] := fun k hk =>
    List.ne_nil_of_mem (hc k hk)
  have hcard : (t.files.map fun f => some (Location.ofPath f.1)).toFinset.card <
      (Finset.range n).card := by
    rw [Finset.card_range]
    refine Nat.lt_of_le_of_lt (List.toFinset_card_le _) ?_
    rwa [List.length_map]
  obtain ⟨i, hi, j, hj, hne, htarget⟩ := Finset.exists_ne_map_eq_of_card_lt_of_maps_to hcard
    (f := fun k => target? t (c k)) fun k hk =>
      target?_mem (hnil k (Finset.mem_range.mp hk))
  have hin := Finset.mem_range.mp hi
  have hjn := Finset.mem_range.mp hj
  have heq := included_congr (hnil i hin) (hnil j hjn) htarget
  rcases Nat.lt_or_gt_of_ne hne with hlt | hgt
  · exact ⟨i, j, hlt, hjn, heq⟩
  · exact ⟨j, i, hgt, hin, heq.symm⟩

/-- Behind as many rounds as there are files nothing is met that was not met before. -/
theorem exists_mem_round_lt (hn : t.files.length < n) (ha : a ∈ round t n options) :
    ∃ m < n, a ∈ round t m options := by
  obtain ⟨c, hstart, rfl, hc⟩ := exists_chain ha
  obtain ⟨i, j, hij, hjn, heq⟩ := exists_repeat hn hc
  -- The chain goes on behind its second visit to the file as it does behind the first.
  have hi : c i ∈ round t i options := by
    have := mem_round_chain (c := c) (i := 0) (d := i) (n := 0) hstart
      fun k _ hk => hc k (by omega)
    rwa [Nat.zero_add] at this
  have hj : c (j + 1) ∈ round t (i + 1) options :=
    mem_round_succ hi (by rw [Includes, heq]; exact hc j hjn)
  have hend := mem_round_chain (c := c) (i := j + 1) (d := n - (j + 1)) hj
    fun k _ hk => hc k (by omega)
  rw [Nat.add_sub_cancel' (Nat.succ_le_of_lt hjn)] at hend
  exact ⟨i + 1 + (n - (j + 1)), by omega, hend⟩

/-- Whatever is reached is met in as many rounds as there are files, and one. -/
theorem exists_mem_round (h : Reached t options a) :
    ∃ n ≤ t.files.length, a ∈ round t n options := by
  obtain ⟨n, hn⟩ := reached_iff_exists_round.mp h
  induction n using Nat.strongRecOn with
  | ind n ih =>
      rcases Nat.lt_or_ge t.files.length n with hlt | hge
      · obtain ⟨m, hm, ham⟩ := exists_mem_round_lt hlt hn
        exact ih m hm ham
      · exact ⟨n, hge, hn⟩

/-- Only a circle leads to more rounds than that. -/
theorem exists_circle (hn : t.files.length < n) (h : round t n options ≠ []) :
    ∃ a, Reached t options a ∧ Relation.TransGen (Includes t) a a := by
  obtain ⟨a, ha⟩ := List.exists_mem_of_ne_nil _ h
  obtain ⟨c, hstart, -, hc⟩ := exists_chain ha
  obtain ⟨i, j, hij, hjn, heq⟩ := exists_repeat hn hc
  have hreach : Relation.ReflTransGen (Includes t) (c 0) (c (i + 1)) := by
    have := reflTransGen_chain (c := c) (i := 0) (d := i + 1) fun k _ hk => hc k (by omega)
    rwa [Nat.zero_add] at this
  have hround : Relation.ReflTransGen (Includes t) (c (i + 1)) (c j) := by
    have := reflTransGen_chain (c := c) (i := i + 1) (d := j - (i + 1))
      fun k _ hk => hc k (by omega)
    rwa [Nat.add_sub_cancel' hij] at this
  refine ⟨c (i + 1), ⟨c 0, hstart, hreach⟩, .tail' hround ?_⟩
  rw [Includes, ← heq]
  exact hc i (Nat.lt_trans hij hjn)

/-! ## Circles -/

theorem round_ne_nil_of_le {m : Nat} (hm : m ≤ n) (h : round t n options ≠ []) :
    round t m options ≠ [] := by
  induction hm with
  | refl => exact h
  | @step n _ ih =>
      refine ih fun hnil => h ?_
      rw [round_succ, hnil]
      rfl

/-- Once round a circle is some number of rounds. -/
theorem exists_round_of_transGen (h : Relation.TransGen (Includes t) a b)
    (ha : a ∈ round t n options) : ∃ d, b ∈ round t (n + (d + 1)) options := by
  induction h with
  | single h => exact ⟨0, mem_round_succ ha h⟩
  | tail _ h ih =>
      obtain ⟨d, hd⟩ := ih
      exact ⟨d + 1, mem_round_succ hd h⟩

/-- A circle that is reached leaves no round empty. -/
theorem round_ne_nil (ha : Reached t options a) (h : Relation.TransGen (Includes t) a a)
    (n : Nat) : round t n options ≠ [] := by
  have hlater : ∃ m ≥ n, a ∈ round t m options := by
    induction n with
    | zero =>
        obtain ⟨m, hm⟩ := reached_iff_exists_round.mp ha
        exact ⟨m, Nat.zero_le m, hm⟩
    | succ n ih =>
        obtain ⟨m, hnm, hm⟩ := ih
        obtain ⟨d, hd⟩ := exists_round_of_transGen h hm
        exact ⟨m + (d + 1), by omega, hd⟩
  obtain ⟨m, hnm, hm⟩ := hlater
  exact round_ne_nil_of_le hnm (List.ne_nil_of_mem hm)

theorem le_before (h : ∀ m < n, round t m options ≠ []) : n ≤ before t n options := by
  induction n generalizing options with
  | zero => exact Nat.zero_le _
  | succ n ih =>
      have hrest : n ≤ before t n (options.flatMap (included t)) := ih fun m hm =>
        h (m + 1) (Nat.succ_lt_succ hm)
      have hfirst : 0 < options.length := List.length_pos_iff.mpr (h 0 (Nat.succ_pos n))
      rw [before]
      omega

variable {s : Intake} {r : Except ToolError Intake} {k : Nat}

/-- Nothing but a faulty option ends the loop where options files lead round in a circle. -/
theorem not_ends (hpending : s.pending = options) (hfaulty : ∀ b, Reached t options b → ¬Faulty t b)
    (ha : Reached t options a) (h : Relation.TransGen (Includes t) a a) : ¬Ends t k s r := by
  intro hends
  obtain ⟨s', -, hiff⟩ := exists_ends_iff_round (k + 1) hpending fun m _ b hb =>
    hfaulty b (reached_iff_exists_round.mpr ⟨m, hb⟩)
  obtain ⟨m, hk, -⟩ := (hiff k r).mp hends
  have hle := le_before (n := k + 1) fun m _ => round_ne_nil ha h m
  omega

/-! ## The end of the loop -/

theorem before_le_bound (h : n ≤ t.files.length + 1) :
    before t n options ≤ bound t options.length := by
  refine Nat.le_trans (before_le t n options) ?_
  exact Nat.mul_le_mul_left _ (Nat.pow_le_pow_right (Nat.succ_pos _) h)

theorem exists_ends_of_reached (hpending : s.pending = options) (ha : Reached t options a)
    (hfaulty : Faulty t a) :
    ∃ k ≤ bound t options.length, ∃ e, Ends t k s (.error e) := by
  obtain ⟨n, hn, han⟩ := exists_mem_round ha
  obtain ⟨k, hk, e, -, hends⟩ := exists_ends_of_faulty n hpending ⟨a, han, hfaulty⟩
  exact ⟨k, Nat.le_trans hk (before_le_bound (Nat.succ_le_succ hn)), e, hends⟩

theorem exists_ends_of_no_circle (hpending : s.pending = options)
    (h : ∀ a, Reached t options a → ¬Faulty t a ∧ ¬Relation.TransGen (Includes t) a a) :
    ∃ k ≤ bound t options.length, ∃ s', Ends t k s (.ok s') := by
  have hlast : round t (t.files.length + 1) options = [] := by
    by_contra hne
    obtain ⟨a, ha, hcircle⟩ := exists_circle (Nat.lt_succ_self _) hne
    exact (h a ha).2 hcircle
  obtain ⟨s', hpending', hiff⟩ := exists_ends_iff_round (t.files.length + 1) hpending
    fun m _ a ha => (h a (reached_iff_exists_round.mpr ⟨m, ha⟩)).1
  rw [hlast] at hpending'
  exact ⟨_, before_le_bound (Nat.le_refl _), s', (hiff _ _).mpr ⟨0, rfl, .done hpending'⟩⟩

/-- The loop ends within the bound, or not at all. -/
theorem Ends.le_bound (h : Ends t k s r) (hpending : s.pending = options) :
    k ≤ bound t options.length := by
  by_cases hfaulty : ∃ a, Reached t options a ∧ Faulty t a
  · obtain ⟨a, ha, hfault⟩ := hfaulty
    obtain ⟨m, hm, e, hends⟩ := exists_ends_of_reached hpending ha hfault
    rwa [(h.unique hends).1]
  · have hnone : ∀ a, Reached t options a → ¬Faulty t a := fun a ha hfault =>
      hfaulty ⟨a, ha, hfault⟩
    obtain ⟨m, hm, s', hends⟩ := exists_ends_of_no_circle hpending fun a ha =>
      ⟨hnone a ha, fun hcircle => not_ends hpending hnone ha hcircle h⟩
    rwa [(h.unique hends).1]

/-- The loop that takes the options of a command line comes to an empty queue exactly if no option
that is reached is faulty or leads back to itself; it fails exactly if one is faulty; and with so
many steps as the bound allows it is followed to its end wherever it has one. -/
theorem ends_iff (t : FileTree) (options : List String) :
    ((∃ n s, Ends t n (ofOptions options) (.ok s)) ↔
        ∀ a, Reached t options a → ¬Faulty t a ∧ ¬Relation.TransGen (Includes t) a a) ∧
      ((∃ n e, Ends t n (ofOptions options) (.error e)) ↔
        ∃ a, Reached t options a ∧ Faulty t a) ∧
      ∀ r, r ≠ .error .endlessOptions →
        (run t (bound t options.length) (ofOptions options) = r ↔
          ∃ n, Ends t n (ofOptions options) r) := by
  have hpending : (ofOptions options).pending = options := rfl
  refine ⟨⟨?_, ?_⟩, ⟨?_, ?_⟩, fun r hr => ⟨?_, ?_⟩⟩
  · rintro ⟨n, s, hends⟩ a ha
    have hnone : ∀ b, Reached t options b → ¬Faulty t b := by
      intro b hb hfault
      obtain ⟨m, -, e, herror⟩ := exists_ends_of_reached hpending hb hfault
      cases (hends.unique herror).2
    exact ⟨hnone a ha, fun hcircle => not_ends hpending hnone ha hcircle hends⟩
  · intro h
    obtain ⟨n, -, s, hends⟩ := exists_ends_of_no_circle hpending h
    exact ⟨n, s, hends⟩
  · rintro ⟨n, e, hends⟩
    by_contra hfaulty
    have hnone : ∀ a, Reached t options a → ¬Faulty t a := fun a ha hfault =>
      hfaulty ⟨a, ha, hfault⟩
    obtain ⟨m, -, s, hok⟩ := exists_ends_of_no_circle hpending fun a ha =>
      ⟨hnone a ha, fun hcircle => not_ends hpending hnone ha hcircle hends⟩
    cases (hends.unique hok).2
  · rintro ⟨a, ha, hfault⟩
    obtain ⟨n, -, e, hends⟩ := exists_ends_of_reached hpending ha hfault
    exact ⟨n, e, hends⟩
  · rintro rfl
    obtain ⟨n, -, hends⟩ := exists_ends_of_run hr
    exact ⟨n, hends⟩
  · rintro ⟨n, hends⟩
    exact hends.run_eq (hends.le_bound hpending)

/-- An options file that names itself keeps the loop going for ever. -/
theorem not_ends_itself :
    ¬∃ n r, Ends ⟨[("o", Utf8.encode "--options=o")], []⟩ n (ofOptions ["--options=o"]) r := by
  rintro ⟨n, r, hends⟩
  have hsplit : splitOption "--options=o" = ("options", some "o") := by decide
  have hlines : FileTree.lines ⟨[("o", Utf8.encode "--options=o")], []⟩ "o" =
      .ok ["--options=o"] := by decide +kernel
  have hincluded : included ⟨[("o", Utf8.encode "--options=o")], []⟩ "--options=o" =
      ["--options=o"] := by
    rw [included, hsplit, if_pos rfl, Option.bind_some, hlines]
    rfl
  refine not_ends rfl ?_ ⟨_, List.mem_singleton_self _, .refl⟩ (.single ?_) hends
  · rintro b ⟨_, hb, hreach⟩
    obtain rfl := List.mem_singleton.mp hb
    have hitself : b = "--options=o" := by
      induction hreach with
      | refl => rfl
      | tail _ h ih =>
          rw [ih, Includes, hincluded] at h
          exact List.mem_singleton.mp h
    subst hitself
    intro hfault
    cases hfault with
    | noValue _ hvalue =>
        rw [hsplit] at hvalue
        exact absurd (hvalue "o" rfl) (by decide)
    | unreadable hvalue _ hlines' =>
        rw [hsplit] at hvalue
        cases hvalue
        cases hlines.symm.trans hlines'
  · rw [Includes, hincluded]
    exact List.mem_singleton_self _

end Intake

/-- A command line is read from what has been taken in when the loop ends. -/
theorem Command.readWith_eq_of_ends {reader : ArgumentReader} {t : FileTree}
    {arguments : List String} {n : Nat} {s : Intake}
    (h : Intake.Ends t n (Intake.ofOptions (arguments.takeWhile isOption)) (.ok s)) :
    readWith reader t arguments = ofIntake reader s (arguments.dropWhile isOption) := by
  have hbound : n ≤ Intake.bound t (arguments.takeWhile isOption).length := h.le_bound rfl
  rw [readWith, h.run_eq hbound]

end Beautifier
