/-
A rules file beside other selections.

Options for the formatter and exclude patterns are gathered from the command
line, the options files and the exclude lists, and a rules file is refused
beside them if any has been gathered.  An option that is reached gathers
something if it is one for the formatter, an `exclude`, or an `exclude-list`
whose file holds a line that counts (`Conflicts`); what has been gathered at
the end tells exactly whether such an option was reached
(`Ends.gatheredNothing_iff`).  An `exclude-list` without a line that counts
goes unnoticed.
-/
import Beautifier.Proofs.Tool.Brought
import Beautifier.Tool.Run

namespace Beautifier

namespace Intake

/-- An option gathers options for the formatter or exclude patterns. -/
inductive Conflicts (t : FileTree) (option : String) : Prop
  | forwarded (hname : IsForwarded option)
  | exclude (hname : (splitOption option).1 = "exclude")
  | excludeList {path : String} {lines : List String}
      (hname : (splitOption option).1 = "exclude-list")
      (hvalue : (splitOption option).2 = some path) (hlines : t.lines path = .ok lines)
      (hne : lines ≠ [])

/-- An option chooses files or options for the formatter, whatever a file that it names holds. -/
def Selects (option : String) : Prop :=
  IsForwarded option ∨ (splitOption option).1 = "exclude" ∨
    (splitOption option).1 = "exclude-list"

/-- Neither options for the formatter nor exclude patterns have been gathered. -/
structure GatheredNothing (s : Intake) : Prop where
  forwarded : s.forwarded = []
  excludes : s.excludes = []

variable {t : FileTree} {s s' b : Intake} {option a : String} {n : Nat} {e : ToolError}

theorem gatheredNothing_append :
    GatheredNothing (s.append b) ↔ GatheredNothing s ∧ GatheredNothing b := by
  constructor
  · rintro ⟨hforwarded, hexcludes⟩
    obtain ⟨hs, hb⟩ := List.append_eq_nil_iff.mp hforwarded
    obtain ⟨hs', hb'⟩ := List.append_eq_nil_iff.mp hexcludes
    exact ⟨⟨hs, hs'⟩, ⟨hb, hb'⟩⟩
  · rintro ⟨⟨hs, hs'⟩, ⟨hb, hb'⟩⟩
    exact ⟨List.append_eq_nil_iff.mpr ⟨hs, hb⟩, List.append_eq_nil_iff.mpr ⟨hs', hb'⟩⟩

/-- An option that the tool knows, and that is no pattern or list of patterns, conflicts with
nothing. -/
theorem not_conflicts (hname : (splitOption option).1 ∈
    ["help", "dry-run", "quiet", "version", "astyle-version", "options", "rules"]) :
    ¬Conflicts t option := by
  have hnames : ∀ name ∈ ["help", "dry-run", "quiet", "version", "astyle-version", "options",
      "rules"], name ∈ "help" :: (ToolOptions.switches ++ ToolOptions.valued) ∧
        name ≠ "exclude" ∧ name ≠ "exclude-list" := by decide
  obtain ⟨hknown, hexclude, hlist⟩ := hnames _ hname
  rintro (hforwarded | hname' | ⟨hname', -, -, -⟩)
  · exact hforwarded hknown
  · exact hexclude hname'
  · exact hlist hname'

/-- What an option brings in tells whether it conflicts with a rules file. -/
theorem Brings.gatheredNothing_iff (h : Brings t option b) :
    GatheredNothing b ↔ ¬Conflicts t option := by
  have hswitches : ∀ name ∈ ToolOptions.switches, name ∈
      ["help", "dry-run", "quiet", "version", "astyle-version", "options", "rules"] := by decide
  cases h with
  | help hname => exact iff_of_true ⟨rfl, rfl⟩ (not_conflicts (by rw [hname]; decide))
  | switch hname => exact iff_of_true ⟨rfl, rfl⟩ (not_conflicts (hswitches _ hname))
  | options hname => exact iff_of_true ⟨rfl, rfl⟩ (not_conflicts (by rw [hname]; decide))
  | exclude hname =>
      refine iff_of_false ?_ (not_not_intro (.exclude hname))
      rintro ⟨-, ⟨⟩⟩
  | @excludeList path lines hname hvalue hlines =>
      constructor
      · rintro ⟨-, hnil⟩ (hforwarded | hname' | ⟨-, hvalue', hlines', hne⟩)
        · exact hforwarded (by rw [hname]; decide)
        · rw [hname] at hname'
          exact absurd hname' (by decide)
        · obtain rfl := Option.some.inj (hvalue.symm.trans hvalue')
          exact hne (Except.ok.inj (hlines'.symm.trans hlines) ▸ hnil)
      · intro hnot
        refine ⟨rfl, ?_⟩
        by_contra hne
        exact hnot (.excludeList hname hvalue hlines hne)
  | value hname =>
      refine iff_of_true ⟨rfl, rfl⟩ (not_conflicts ?_)
      rcases hname with hname | hname <;> rw [hname] <;> decide
  | forwarded hname =>
      refine iff_of_false ?_ (not_not_intro (.forwarded hname))
      rintro ⟨⟨⟩, -⟩

/-- At the end of the queue nothing has been gathered beyond what was at its start, exactly if no
option that is reached conflicts with a rules file. -/
theorem Ends.gatheredNothing_iff {r : Except ToolError Intake} (h : Ends t n s r)
    (hr : r = .ok s') :
    GatheredNothing s' ↔ GatheredNothing s ∧ ∀ a, Reached t s.pending a → ¬Conflicts t a := by
  induction h with
  | @done s hpending =>
      obtain rfl := Except.ok.inj hr
      rw [hpending]
      refine (and_iff_left ?_).symm
      rintro a ⟨b, hb, -⟩
      cases hb
  | fault => cases hr
  | @next n s s₁ r hpending hstep _ ih =>
      obtain ⟨option, rest, hqueue⟩ := List.exists_cons_of_ne_nil hpending
      rcases step_brings t option with ⟨e, -, herror⟩ | ⟨b, hb, hok⟩
      · cases hstep.symm.trans (herror s rest hqueue)
      obtain rfl := Except.ok.inj (hstep.symm.trans (hok s rest hqueue))
      have hrest : (append { s with pending := rest } b).pending = rest ++ included t option :=
        congrArg (rest ++ ·) hb.pending_eq
      rw [ih hr, gatheredNothing_append, hb.gatheredNothing_iff, hrest, hqueue, and_assoc]
      refine and_congr ⟨fun h => ⟨h.forwarded, h.excludes⟩, fun h => ⟨h.forwarded, h.excludes⟩⟩ ?_
      simp only [reached_cons, or_imp, forall_and, forall_eq]

/-- The queue never fails because of a conflict. -/
theorem Ends.ne_rulesConflict {r : Except ToolError Intake} (h : Ends t n s r) :
    r ≠ .error .rulesConflict := by
  induction h with
  | done => exact nofun
  | @fault s e hstep =>
      cases hqueue : s.pending with
      | nil =>
          rw [step, hqueue] at hstep
          cases hstep
      | cons option rest =>
          rcases step_brings t option with ⟨e', hne, herror⟩ | ⟨b, -, hok⟩
          · obtain rfl := Except.error.inj (hstep.symm.trans (herror s rest hqueue))
            exact fun h => hne (Except.error.inj h)
          · cases hstep.symm.trans (hok s rest hqueue)
  | next _ _ _ ih => exact ih

/-- An option that selects, and neither fails nor conflicts with a rules file, names a list of
patterns without a line that counts. -/
theorem exists_lines_nil (hselects : Selects option) (hfaulty : ¬Faulty t option)
    (hconflicts : ¬Conflicts t option) :
    (splitOption option).1 = "exclude-list" ∧
      ∃ path, (splitOption option).2 = some path ∧ t.lines path = .ok [] := by
  rcases hselects with hname | hname | hname
  · exact absurd (.forwarded hname) hconflicts
  · exact absurd (.exclude hname) hconflicts
  refine ⟨hname, ?_⟩
  cases hvalue : (splitOption option).2 with
  | none =>
      refine absurd (.noValue (by rw [hname]; decide) fun value hmem => ?_) hfaulty
      rw [hvalue] at hmem
      cases hmem
  | some path =>
      cases hlines : t.lines path with
      | error e => exact absurd (.unreadable hvalue (.inr hname) hlines) hfaulty
      | ok lines =>
          refine ⟨path, rfl, ?_⟩
          by_cases hnil : lines = []
          · rw [hlines, hnil]
          · exact absurd (.excludeList hname hvalue hlines hnil) hconflicts

end Intake

namespace Command

open Intake

variable {reader : ArgumentReader} {t : FileTree} {arguments : List String}

/-- A command line is read at the end of its queue, or fails as the queue does. -/
theorem exists_ends (h : readWith reader t arguments ≠ .error .endlessOptions) :
    ∃ n r, Ends t n (ofOptions (arguments.takeWhile isOption)) r ∧
      readWith reader t arguments = match r with
        | .error e => .error e
        | .ok s => ofIntake reader s (arguments.dropWhile isOption) := by
  have hrun : (ofOptions (arguments.takeWhile isOption)).run t
      (bound t (arguments.takeWhile isOption).length) ≠ .error .endlessOptions := by
    intro hendless
    rw [readWith, hendless] at h
    exact h rfl
  obtain ⟨n, -, hends⟩ := exists_ends_of_run hrun
  exact ⟨n, _, hends, rfl⟩

theorem gathered_iff {s : Intake} :
    (!(s.forwarded.isEmpty && s.excludes.isEmpty)) = true ↔ ¬GatheredNothing s := by
  rw [Bool.not_eq_true', Bool.and_eq_false_iff, List.isEmpty_eq_false_iff,
    List.isEmpty_eq_false_iff, ← not_and_or]
  exact not_congr ⟨fun h => ⟨h.1, h.2⟩, fun h => ⟨h.forwarded, h.excludes⟩⟩

/-- What has been taken in is read as a run or as a conflict by what has been gathered. -/
theorem ofIntake_of_read {s : Intake} {tool : ToolOptions}
    (hread : reader s.arguments = .ok tool) (files : List String) :
    (tool.rules.isSome ∧ ¬GatheredNothing s ∧ ofIntake reader s files = .error .rulesConflict) ∨
      ((tool.rules.isSome → GatheredNothing s) ∧
        ofIntake reader s files = .ok (.run ⟨tool, s.forwarded, s.excludes, files⟩)) := by
  rw [ofIntake, hread]
  dsimp only
  split
  · next hconflict =>
    rw [Bool.and_eq_true, gathered_iff] at hconflict
    exact .inl ⟨hconflict.1, hconflict.2, rfl⟩
  · next hconflict =>
    rw [Bool.and_eq_true, gathered_iff, not_and, not_not] at hconflict
    exact .inr ⟨hconflict, rfl⟩

/-- A run or a conflict comes of arguments that ask for a run. -/
theorem exists_read_of_ofIntake {s : Intake} {files : List String} {r : Except ToolError Command}
    (h : ofIntake reader s files = r) (hr : r = .error .rulesConflict ∨ ∃ i, r = .ok (.run i)) :
    ∃ tool, reader s.arguments = .ok tool := by
  rw [ofIntake] at h
  split at h
  · split at h
    · subst h
      rcases hr with hr | ⟨i, hr⟩ <;> cases hr
    · subst h
      rcases hr with hr | ⟨i, hr⟩ <;> cases hr
  · next tool hread => exact ⟨tool, hread⟩

/-- Whatever library reads the arguments, with a rules file every option that is reached and selects
files or options is an `exclude-list` whose file has no line that counts.  The command line is
refused because of a rules file exactly if the queue comes to its end, the arguments ask for a run
with a rules file, and an option that is reached is forwarded, an `exclude`, or an `exclude-list`
whose file has a line that counts. -/
theorem read_rulesConflict_iff (reader : ArgumentReader) (t : FileTree) (arguments : List String) :
    (∀ i, readWith reader t arguments = .ok (.run i) → i.tool.rules.isSome →
      i.forwarded = [] ∧ i.excludes = [] ∧
        ∀ a, Reached t (arguments.takeWhile isOption) a → Selects a →
          (splitOption a).1 = "exclude-list" ∧
            ∃ path, (splitOption a).2 = some path ∧ t.lines path = .ok []) ∧
      (readWith reader t arguments = .error .rulesConflict ↔
        ∃ n s tool, Ends t n (ofOptions (arguments.takeWhile isOption)) (.ok s) ∧
          reader s.arguments = .ok tool ∧ tool.rules.isSome ∧
          ∃ a, Reached t (arguments.takeWhile isOption) a ∧ Conflicts t a) := by
  have hgathered : ∀ {n s}, Ends t n (ofOptions (arguments.takeWhile isOption)) (.ok s) →
      (GatheredNothing s ↔ ∀ a, Reached t (arguments.takeWhile isOption) a → ¬Conflicts t a) := by
    intro n s hends
    have hstart : GatheredNothing (ofOptions (arguments.takeWhile isOption)) := ⟨rfl, rfl⟩
    exact (hends.gatheredNothing_iff rfl).trans (and_iff_right hstart)
  refine ⟨?_, ?_, ?_⟩
  · intro i hread hrules
    have hreads : readWith reader t arguments ≠ .error .endlessOptions := by simp [hread]
    obtain ⟨n, r, hends, heq⟩ := exists_ends hreads
    cases r with
    | error e => cases hread.symm.trans heq
    | ok s =>
        have hintake := heq.symm.trans hread
        obtain ⟨tool, htool⟩ := exists_read_of_ofIntake hintake (.inr ⟨i, rfl⟩)
        rcases ofIntake_of_read htool (arguments.dropWhile isOption) with
          ⟨-, -, hconflict⟩ | ⟨hnothing, hrun⟩
        · cases hintake.symm.trans hconflict
        cases hintake.symm.trans hrun
        have hnothing := hnothing hrules
        refine ⟨hnothing.forwarded, hnothing.excludes, fun a ha hselects => ?_⟩
        have hok := (ends_iff t (arguments.takeWhile isOption)).1.mp ⟨n, s, hends⟩ a ha
        exact exists_lines_nil hselects hok.1 ((hgathered hends).mp hnothing a ha)
  · intro hread
    have hreads : readWith reader t arguments ≠ .error .endlessOptions := by simp [hread]
    obtain ⟨n, r, hends, heq⟩ := exists_ends hreads
    cases r with
    | error e =>
        obtain rfl := Except.error.inj (heq.symm.trans hread)
        exact absurd rfl hends.ne_rulesConflict
    | ok s =>
        have hintake := heq.symm.trans hread
        obtain ⟨tool, htool⟩ := exists_read_of_ofIntake hintake (.inl rfl)
        rcases ofIntake_of_read htool (arguments.dropWhile isOption) with
          ⟨hrules, hgather, -⟩ | ⟨-, hrun⟩
        · rw [hgathered hends] at hgather
          push Not at hgather
          exact ⟨n, s, tool, hends, htool, hrules, hgather⟩
        · cases hintake.symm.trans hrun
  · rintro ⟨n, s, tool, hends, htool, hrules, a, ha, hconflicts⟩
    rw [readWith_eq_of_ends hends]
    rcases ofIntake_of_read htool (arguments.dropWhile isOption) with
      ⟨-, -, hconflict⟩ | ⟨hnothing, -⟩
    · exact hconflict
    · exact absurd hconflicts ((hgathered hends).mp (hnothing hrules) a ha)

/-- A rules file alone, and beside an option for the formatter. -/
theorem read_rulesConflict_style :
    read ⟨[], []⟩ ["--rules=r", "a.c"] =
        .ok (.run ⟨{ ToolOptions.none with rules := some "r" }, [], [], ["a.c"]⟩) ∧
      (∀ a, Reached ⟨[], []⟩ ["--rules=r"] a → Selects a → (splitOption a).1 = "exclude-list") ∧
      read ⟨[], []⟩ ["--rules=r", "--style=java", "a.c"] = .error .rulesConflict := by
  have hends : Ends ⟨[], []⟩ 1 (ofOptions ["--rules=r"]) (.ok ⟨[], ["--rules", "r"], [], []⟩) :=
    .next nofun rfl (.done rfl)
  have hread : read ⟨[], []⟩ ["--rules=r", "a.c"] =
      .ok (.run ⟨{ ToolOptions.none with rules := some "r" }, [], [], ["a.c"]⟩) := by
    rw [read, readWith_eq_of_ends hends]
    rfl
  refine ⟨hread, fun a ha hselects => ?_, ?_⟩
  · have hlines :=
      ((read_rulesConflict_iff Libraries.standard.arguments _ _).1 _ hread rfl).2.2 a ha hselects
    exact hlines.1
  · have hends' : Ends ⟨[], []⟩ 2 (ofOptions ["--rules=r", "--style=java"])
        (.ok ⟨[], ["--rules", "r"], ["--style=java"], []⟩) :=
      .next nofun rfl (.next nofun rfl (.done rfl))
    exact (read_rulesConflict_iff Libraries.standard.arguments _ _).2.mpr ⟨_, _, _, hends', rfl,
      rfl, "--style=java", ⟨_, by simp [isOption], .refl⟩, .forwarded (by decide)⟩

/-- An exclude list of comments goes unnoticed beside a rules file. -/
theorem not_rulesConflict_comments :
    ¬∀ (t : FileTree) (arguments : List String) (i : Invocation),
      read t arguments = .ok (.run i) → i.tool.rules.isSome →
        ∀ a, Reached t (arguments.takeWhile isOption) a → ¬Selects a := by
  intro h
  have hrules : step ⟨[("e", Utf8.encode "# none")], []⟩
      (ofOptions ["--rules=r", "--exclude-list=e"]) =
        .ok ⟨["--exclude-list=e"], ["--rules", "r"], [], []⟩ := rfl
  have hlist : step ⟨[("e", Utf8.encode "# none")], []⟩
      ⟨["--exclude-list=e"], ["--rules", "r"], [], []⟩ =
        .ok ⟨[], ["--rules", "r", "--exclude-list", "e"], [], []⟩ := by decide +kernel
  have hends := Ends.next (List.cons_ne_nil _ _) hrules
    (.next (List.cons_ne_nil _ _) hlist (.done rfl))
  have hread : read ⟨[("e", Utf8.encode "# none")], []⟩ ["--rules=r", "--exclude-list=e", "a.c"] =
      .ok (.run ⟨{ ToolOptions.none with rules := some "r", excludeList := ["e"] }, [], [],
        ["a.c"]⟩) := by
    rw [read, readWith_eq_of_ends hends]
    rfl
  refine h _ _ _ hread rfl "--exclude-list=e" ⟨_, ?_, .refl⟩ (.inr (.inr (by decide)))
  simp [isOption]

end Command

end Beautifier
