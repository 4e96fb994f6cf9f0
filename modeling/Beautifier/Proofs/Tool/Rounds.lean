/-
The queue of options, round by round.

`Ends` is the loop itself, with no bound on its steps: it ends after so many
steps, with a queue in which nothing waits or with an error.  What waits in
the queue comes in rounds: first the options of the command line, then the
lines of the options files that these name, and so on.  A round in which no
option is faulty is taken in as many steps as it has options, and leaves the
next round (`exists_ends_iff_round`); a faulty option ends the loop where it
is met (`exists_ends_of_faulty`).
-/
import Beautifier.Tool.CommandLine

namespace Beautifier.Intake

/-- An option is faulty: it needs a value and has none, or it names a file that cannot be
read. -/
inductive Faulty (t : FileTree) (option : String) : Prop
  | noValue (hname : (splitOption option).1 ∈ ToolOptions.valued)
      (hvalue : ∀ value ∈ (splitOption option).2, value = "")
  | unreadable {path : String} {e : ToolError} (hvalue : (splitOption option).2 = some path)
      (hname : (splitOption option).1 = "options" ∨ (splitOption option).1 = "exclude-list")
      (hlines : t.lines path = .error e)

/-- The lines of the options file that an option names, if it names one. -/
def included (t : FileTree) (option : String) : List String :=
  if (splitOption option).1 = "options" then
    ((splitOption option).2.bind fun path => (t.lines path).toOption).getD []
  else []

/-- The loop that takes options ends after `n` steps. -/
inductive Ends (t : FileTree) : Nat → Intake → Except ToolError Intake → Prop
  | done {s : Intake} (hpending : s.pending = []) : Ends t 0 s (.ok s)
  | fault {s : Intake} {e : ToolError} (hstep : s.step t = .error e) : Ends t 1 s (.error e)
  | next {n : Nat} {s s' : Intake} {r : Except ToolError Intake} (hpending : s.pending ≠ [])
      (hstep : s.step t = .ok s') (hrest : Ends t n s' r) : Ends t (n + 1) s r

variable {t : FileTree} {s s' : Intake} {option : String} {n : Nat} {r : Except ToolError Intake}

/-! ## One option -/

theorem takeOption_of_not_valued (t : FileTree) (s : Intake)
    (hname : (splitOption option).1 ∉ ToolOptions.valued) :
    ∃ s', takeOption t s option = .ok s' ∧ s'.pending = s.pending := by
  have hvalued : ToolOptions.valued.contains (splitOption option).1 = false := by
    rw [← Bool.not_eq_true, List.contains_iff_mem]
    exact hname
  unfold takeOption
  dsimp only
  rw [hvalued]
  split
  · exact ⟨_, rfl, rfl⟩
  · split
    · exact ⟨_, rfl, rfl⟩
    · exact ⟨_, rfl, rfl⟩

theorem takeOption_of_valued (t : FileTree) (s : Intake)
    (hname : (splitOption option).1 ∈ ToolOptions.valued) :
    takeOption t s option = match (splitOption option).2.filter (· != "") with
      | none => .error (.missingValue (splitOption option).1)
      | some value => (s.bringIn t (splitOption option).1 value).map
          fun s => s.takeValued (splitOption option).1 value := by
  have hother : ∀ name ∈ ToolOptions.valued, (name == "help") = false ∧
      ToolOptions.switches.contains name = false ∧ ToolOptions.valued.contains name = true := by
    decide
  obtain ⟨hhelp, hswitch, hvalued⟩ := hother _ hname
  unfold takeOption
  dsimp only
  rw [hhelp, hswitch, hvalued]
  rfl

theorem lines_ne_endlessOptions {path : String} {e : ToolError} (h : t.lines path = .error e) :
    e ≠ .endlessOptions := by
  rw [FileTree.lines] at h
  split at h
  · cases h
  · cases h
    exact nofun

theorem bringIn_cases (t : FileTree) (s : Intake) (name value : String) :
    ((name = "options" ∨ name = "exclude-list") ∧ ∃ e, t.lines value = .error e ∧
        s.bringIn t name value = .error e) ∨
      ((name = "options" ∨ name = "exclude-list") → ∃ lines, t.lines value = .ok lines) ∧
        ∃ s', s.bringIn t name value = .ok s' ∧ s'.pending = s.pending ++
          if name = "options" then (t.lines value).toOption.getD [] else [] := by
  unfold bringIn
  by_cases hoptions : name = "options"
  · subst hoptions
    cases hlines : t.lines value with
    | error e => exact .inl ⟨.inl rfl, e, rfl, rfl⟩
    | ok lines => exact .inr ⟨fun _ => ⟨lines, rfl⟩, _, rfl, rfl⟩
  · rw [beq_false_of_ne hoptions, if_neg hoptions, List.append_nil]
    by_cases hexclude : name = "exclude"
    · subst hexclude
      exact .inr ⟨nofun, _, rfl, rfl⟩
    · rw [beq_false_of_ne hexclude]
      by_cases hlist : name = "exclude-list"
      · subst hlist
        cases hlines : t.lines value with
        | error e => exact .inl ⟨.inr rfl, e, rfl, rfl⟩
        | ok lines => exact .inr ⟨fun _ => ⟨lines, rfl⟩, _, rfl, rfl⟩
      · rw [beq_false_of_ne hlist]
        refine .inr ⟨?_, s, rfl, rfl⟩
        rintro (h | h)
        · exact absurd h hoptions
        · exact absurd h hlist

/-- An option is faulty and ends the loop, or is taken and leaves what it includes at the end of
the queue. -/
theorem takeOption_cases (t : FileTree) (s : Intake) (option : String) :
    (Faulty t option ∧ ∃ e, takeOption t s option = .error e ∧ e ≠ .endlessOptions) ∨
      ¬Faulty t option ∧ ∃ s', takeOption t s option = .ok s' ∧
        s'.pending = s.pending ++ included t option := by
  have hvalued : ∀ {name},
      name = "options" ∨ name = "exclude-list" → name ∈ ToolOptions.valued := by
    rintro _ (rfl | rfl) <;> decide
  by_cases hname : (splitOption option).1 ∈ ToolOptions.valued
  · rw [takeOption_of_valued t s hname]
    cases hvalue : (splitOption option).2.filter (· != "") with
    | none =>
        refine .inl ⟨.noValue hname fun value hmem => ?_, _, rfl, nofun⟩
        rw [Option.mem_def.mp hmem] at hvalue
        simpa using hvalue
    | some path =>
        obtain ⟨hpath, hne⟩ := Option.filter_eq_some_iff.mp hvalue
        rcases bringIn_cases t s (splitOption option).1 path with
          ⟨hfile, e, hlines, hbring⟩ | ⟨hfile, s', hbring, hpending⟩
        · refine .inl ⟨.unreadable hpath hfile hlines, e, ?_, lines_ne_endlessOptions hlines⟩
          dsimp only
          rw [hbring]
          rfl
        · refine .inr ⟨?_, s'.takeValued (splitOption option).1 path, ?_, ?_⟩
          · rintro (⟨-, hempty⟩ | ⟨hpath', hfile', hlines⟩)
            · simp [hempty path hpath] at hne
            · obtain ⟨lines, hok⟩ := hfile hfile'
              rw [← Option.some.inj (hpath.symm.trans hpath'), hok] at hlines
              cases hlines
          · dsimp only
            rw [hbring]
            rfl
          · rw [included, hpath]
            exact hpending
  · refine .inr ⟨?_, ?_⟩
    · rintro (⟨hname', -⟩ | ⟨-, hfile, -⟩)
      · exact hname hname'
      · exact hname (hvalued hfile)
    · obtain ⟨s', htake, hpending⟩ := takeOption_of_not_valued t s hname
      have hnone : included t option = [] := if_neg fun h => hname (hvalued (.inl h))
      exact ⟨s', htake, by rw [hpending, hnone, List.append_nil]⟩

theorem step_cases {rest : List String} (h : s.pending = option :: rest) :
    (Faulty t option ∧ ∃ e, s.step t = .error e ∧ e ≠ .endlessOptions) ∨
      ¬Faulty t option ∧ ∃ s', s.step t = .ok s' ∧ s'.pending = rest ++ included t option := by
  have hstep : s.step t = takeOption t { s with pending := rest } option := by
    rw [step, h]
  rw [hstep]
  exact takeOption_cases t _ option

/-! ## Rounds -/

/-- Options that are not faulty are taken one after another, and what they include joins the
queue. -/
theorem exists_ends_iff (options : List String) {rest : List String}
    (hpending : s.pending = options ++ rest) (hfaulty : ∀ a ∈ options, ¬Faulty t a) :
    ∃ s', s'.pending = rest ++ options.flatMap (included t) ∧
      ∀ n r, Ends t n s r ↔ ∃ m, n = options.length + m ∧ Ends t m s' r := by
  induction options generalizing s rest with
  | nil => exact ⟨s, by simpa using hpending, fun n r => by simp⟩
  | cons a options ih =>
      rcases step_cases (t := t) hpending with ⟨h, -⟩ | ⟨-, s₁, hstep, hpending₁⟩
      · exact absurd h (hfaulty a List.mem_cons_self)
      obtain ⟨s', hpending', hends⟩ := ih
        (by rw [hpending₁]; exact List.append_assoc ..) fun b hb =>
          hfaulty b (List.mem_cons_of_mem _ hb)
      refine ⟨s', by rw [hpending', List.flatMap_cons, List.append_assoc], fun n r => ?_⟩
      constructor
      · intro h
        cases h with
        | done hnil => simp [hnil] at hpending
        | fault hstep' => cases hstep.symm.trans hstep'
        | next _ hstep' hrest =>
            cases hstep.symm.trans hstep'
            obtain ⟨m, rfl, hm⟩ := (hends _ _).mp hrest
            exact ⟨m, by rw [List.length_cons, Nat.add_right_comm], hm⟩
      · rintro ⟨m, rfl, hm⟩
        rw [List.length_cons, Nat.add_right_comm]
        exact .next (by rw [hpending]; nofun) hstep ((hends _ _).mpr ⟨m, rfl, hm⟩)

/-- The options of a round: what waits at first, or what the options of the round before
include. -/
def round (t : FileTree) : Nat → List String → List String
  | 0, options => options
  | n + 1, options => round t n (options.flatMap (included t))

/-- The number of options in the rounds before a round. -/
def before (t : FileTree) : Nat → List String → Nat
  | 0, _ => 0
  | n + 1, options => options.length + before t n (options.flatMap (included t))

theorem round_succ (t : FileTree) (n : Nat) (options : List String) :
    round t (n + 1) options = (round t n options).flatMap (included t) := by
  induction n generalizing options with
  | zero => rfl
  | succ n ih => exact ih _

/-- Rounds without a faulty option are taken, and the next round waits. -/
theorem exists_ends_iff_round (n : Nat) {options : List String} (hpending : s.pending = options)
    (hfaulty : ∀ m < n, ∀ a ∈ round t m options, ¬Faulty t a) :
    ∃ s', s'.pending = round t n options ∧
      ∀ k r, Ends t k s r ↔ ∃ m, k = before t n options + m ∧ Ends t m s' r := by
  induction n generalizing s options with
  | zero => exact ⟨s, hpending, fun k r => by simp [before]⟩
  | succ n ih =>
      rw [← List.append_nil options] at hpending
      obtain ⟨s₁, hpending₁, hends₁⟩ :=
        exists_ends_iff options hpending (hfaulty 0 (Nat.succ_pos n))
      rw [List.nil_append] at hpending₁
      obtain ⟨s', hpending', hends'⟩ := ih hpending₁
        fun m hm => hfaulty (m + 1) (Nat.succ_lt_succ hm)
      refine ⟨s', hpending', fun k r => ?_⟩
      rw [hends₁]
      constructor
      · rintro ⟨m₁, rfl, hm₁⟩
        obtain ⟨m, rfl, hm⟩ := (hends' _ _).mp hm₁
        exact ⟨m, (Nat.add_assoc ..).symm, hm⟩
      · rintro ⟨m, rfl, hm⟩
        exact ⟨_, Nat.add_assoc .., (hends' _ _).mpr ⟨m, rfl, hm⟩⟩

/-- A faulty option among those in front ends the loop with an error. -/
theorem exists_ends_error (options : List String) {rest : List String}
    (hpending : s.pending = options ++ rest) (hfaulty : ∃ a ∈ options, Faulty t a) :
    ∃ m ≤ options.length, ∃ e, e ≠ .endlessOptions ∧ Ends t m s (.error e) := by
  induction options generalizing s rest with
  | nil => simp at hfaulty
  | cons b options ih =>
      rcases step_cases (t := t) hpending with
        ⟨-, e, hstep, hne⟩ | ⟨hb, s', hstep, hpending'⟩
      · exact ⟨1, Nat.succ_le_succ (Nat.zero_le _), e, hne, .fault hstep⟩
      obtain ⟨m, hm, e, hne, hends⟩ := ih (hpending'.trans (List.append_assoc ..))
        (by simpa [hb] using hfaulty)
      exact ⟨m + 1, Nat.succ_le_succ hm, e, hne, .next (by rw [hpending]; nofun) hstep hends⟩

/-- A faulty option in a round ends the loop with an error, in that round or before it. -/
theorem exists_ends_of_faulty (n : Nat) {options : List String} (hpending : s.pending = options)
    (hfaulty : ∃ a ∈ round t n options, Faulty t a) :
    ∃ m ≤ before t (n + 1) options, ∃ e, e ≠ .endlessOptions ∧ Ends t m s (.error e) := by
  induction n generalizing s options with
  | zero =>
      rw [← List.append_nil options] at hpending
      exact exists_ends_error options hpending hfaulty
  | succ n ih =>
      rw [← List.append_nil options] at hpending
      by_cases hfirst : ∃ a ∈ options, Faulty t a
      · obtain ⟨m, hm, hends⟩ := exists_ends_error options hpending hfirst
        exact ⟨m, Nat.le_trans hm (Nat.le_add_right _ _), hends⟩
      · obtain ⟨s', hpending', hiff⟩ := exists_ends_iff (t := t) options hpending
          fun a ha h => hfirst ⟨a, ha, h⟩
        rw [List.nil_append] at hpending'
        obtain ⟨m, hm, e, hne, hends⟩ := ih hpending' hfaulty
        exact ⟨options.length + m, Nat.add_le_add_left hm _, e, hne, (hiff _ _).mpr ⟨m, rfl, hends⟩⟩

/-! ## Bounded steps -/

theorem Ends.unique {m : Nat} {r' : Except ToolError Intake} (h : Ends t n s r)
    (h' : Ends t m s r') : n = m ∧ r = r' := by
  induction h generalizing m r' with
  | @done s hpending =>
      have hstep : s.step t = .ok s := by rw [step, hpending]
      cases h' with
      | done => exact ⟨rfl, rfl⟩
      | fault hstep' => cases hstep.symm.trans hstep'
      | next hne => exact absurd hpending hne
  | @fault s e hstep =>
      cases h' with
      | done hpending =>
          rw [step, hpending] at hstep
          cases hstep
      | fault hstep' =>
          cases hstep.symm.trans hstep'
          exact ⟨rfl, rfl⟩
      | next _ hstep' => cases hstep.symm.trans hstep'
  | @next n s s₁ r hne hstep _ ih =>
      cases h' with
      | done hpending => exact absurd hpending hne
      | fault hstep' => cases hstep.symm.trans hstep'
      | next _ hstep' hrest =>
          cases hstep.symm.trans hstep'
          obtain ⟨rfl, rfl⟩ := ih hrest
          exact ⟨rfl, rfl⟩

/-- Where the loop ends within the bound, the bounded loop ends in the same way. -/
theorem Ends.run_eq (h : Ends t n s r) {fuel : Nat} (hfuel : n ≤ fuel) : run t fuel s = r := by
  induction h generalizing fuel with
  | @done s hpending => cases fuel <;> simp [run, hpending]
  | @fault s e hstep =>
      obtain ⟨fuel, rfl⟩ := Nat.exists_eq_add_of_le' hfuel
      have hne : s.pending ≠ [] := by
        intro hpending
        rw [step, hpending] at hstep
        cases hstep
      simp [run, hne, hstep]
  | @next n s s₁ r hne hstep _ ih =>
      obtain ⟨fuel, rfl⟩ := Nat.exists_eq_add_of_le' (Nat.le_of_add_left_le hfuel)
      simp [run, hne, hstep, ih (Nat.le_of_succ_le_succ hfuel)]

/-- Where the bounded loop does not reach its bound, the loop ends. -/
theorem exists_ends_of_run {fuel : Nat} (h : run t fuel s ≠ .error .endlessOptions) :
    ∃ n ≤ fuel, Ends t n s (run t fuel s) := by
  induction fuel generalizing s with
  | zero =>
      rw [run] at h ⊢
      split at h
      · next hpending =>
        rw [if_pos hpending]
        exact ⟨0, Nat.le_refl 0, .done (List.isEmpty_iff.mp hpending)⟩
      · exact absurd rfl h
  | succ fuel ih =>
      rw [run] at h ⊢
      split at h
      · next hpending =>
        rw [if_pos hpending]
        exact ⟨0, Nat.zero_le _, .done (List.isEmpty_iff.mp hpending)⟩
      next hpending =>
      rw [if_neg hpending]
      cases hstep : s.step t with
      | error e => exact ⟨1, Nat.succ_le_succ (Nat.zero_le _), .fault hstep⟩
      | ok s' =>
          rw [hstep] at h
          obtain ⟨n, hn, hends⟩ := ih h
          exact ⟨n + 1, Nat.succ_le_succ hn,
            .next (fun hnil => hpending (List.isEmpty_iff.mpr hnil)) hstep hends⟩

end Beautifier.Intake
