/-
What a dry run says of a run that writes.

Both settle the same results of formatting and stop at the same one
(`settle_error_iff`).  A dry run changes no file, and ends with status 0
exactly if formatting leaves every file as it is (`settle_true_ok_iff`).  A run
that writes then writes nothing; and one that writes leaves the last file that
it wrote changed, since files are formatted from what they held before the run
(`Settles.unchanged`).  Being quiet only drops the diagnostics.
-/
import Beautifier.Proofs.Options.Joined
import Beautifier.Proofs.Tool.Settled
import Beautifier.Proofs.Tool.Switches

namespace Beautifier

namespace RunReport

/-- A run that changes no file of `t`, and tells by its ending how the other run ends and whether
that one changes a file. -/
structure Confirms (t : FileTree) (check fix : RunReport) : Prop where
  files : check.files = t
  ok : check.ending = .ok 0 ↔ fix.ending = .ok 0 ∧ fix.files = t
  error : ∀ e, check.ending = .error e ↔ fix.ending = .error e

/-- Reports that differ at most in their diagnostics. -/
structure SameResult (a b : RunReport) : Prop where
  output : a.output = b.output
  files : a.files = b.files
  ending : a.ending = b.ending

variable {t : FileTree} {a a' b b' : RunReport}

theorem SameResult.refl (a : RunReport) : SameResult a a := ⟨rfl, rfl, rfl⟩

theorem SameResult.symm (h : SameResult a b) : SameResult b a :=
  ⟨h.output.symm, h.files.symm, h.ending.symm⟩

theorem SameResult.trans (hab : SameResult a b) (hbc : SameResult b a') : SameResult a a' :=
  ⟨hab.output.trans hbc.output, hab.files.trans hbc.files, hab.ending.trans hbc.ending⟩

theorem Confirms.refl (h : a.files = t) : Confirms t a a where
  files := h
  ok := ⟨fun hok => ⟨hok, h⟩, And.left⟩
  error := fun _ => .rfl

theorem Confirms.congr (h : Confirms t a b) (ha : SameResult a' a) (hb : SameResult b' b) :
    Confirms t a' b' where
  files := ha.files.trans h.files
  ok := by
    rw [ha.ending, hb.ending, hb.files]
    exact h.ok
  error := by
    rw [ha.ending, hb.ending]
    exact h.error

end RunReport

open RunReport (Confirms SameResult)

/-- Options of the tool that differ at most in the switches. -/
structure ToolOptions.Alike (tool tool' : ToolOptions) : Prop where
  engine : tool'.engine = tool.engine
  version : tool'.version = tool.version
  rules : tool'.rules = tool.rules

theorem ToolOptions.Alike.refl (tool : ToolOptions) : Alike tool tool := ⟨rfl, rfl, rfl⟩

theorem Switch.alike_set (switch : Switch) (on : Bool) (tool : ToolOptions) :
    tool.Alike (switch.set on tool) := by
  cases switch <;> exact ⟨rfl, rfl, rfl⟩

theorem exists_last_mem {α : Type} {p : α → Prop} {l : List α} (h : ∃ a ∈ l, p a) :
    ∃ front a back, l = front ++ a :: back ∧ p a ∧ ∀ b ∈ back, ¬p b := by
  induction l with
  | nil =>
      obtain ⟨a, hmem, -⟩ := h
      exact absurd hmem List.not_mem_nil
  | cons a l ih =>
      by_cases hl : ∃ b ∈ l, p b
      · obtain ⟨front, b, back, rfl, hb, hback⟩ := ih hl
        exact ⟨a :: front, b, back, rfl, hb, hback⟩
      · obtain ⟨b, hmem, hb⟩ := h
        obtain rfl | hmem := List.mem_cons.mp hmem
        · exact ⟨[], b, l, rfl, hb, fun c hc hpc => hl ⟨c, hc, hpc⟩⟩
        · exact absurd ⟨b, hmem, hb⟩ hl

namespace FileItem

variable {t : FileTree} {item : FileItem} {before after : List UInt8}

theorem FormatsTo.not_refused (h : item.FormatsTo t before after) : ¬item.Refused t := by
  rintro ⟨source, hread, hrefused⟩
  obtain rfl : before = source := Except.ok.inj (h.read.symm.trans hread)
  obtain ⟨text, o, htext, ho, -⟩ := h.formatted
  rcases hrefused with hinvalid | hrejected
  · exact hinvalid ⟨text, htext⟩
  · exact hrejected (exists_parseOptions_iff.mp ⟨o, ho⟩)

theorem FormatsTo.formatFile (h : item.FormatsTo t before after) :
    Run.formatFile t item = .ok (if after = before then .unchanged else .changed after) := by
  rcases formatFile_cases t item with
    ⟨e, hread, -⟩ | ⟨hrefused, -⟩ | ⟨before', after', hitem, hformat⟩
  · cases h.read.symm.trans hread
  · exact absurd hrefused h.not_refused
  · obtain ⟨rfl, rfl⟩ := h.unique hitem
    exact hformat

end FileItem

namespace Settles

variable {t : FileTree} {items : List FileItem} {k : Nat} {r : RunReport}

theorem length_of_ok (h : Settles t t items k r) (hok : r.ending = .ok 0) : k = items.length := by
  rcases h.ending with ⟨hk, -⟩ | ⟨item, -, ⟨e, -, herror⟩ | ⟨-, hfailed⟩⟩
  · exact hk
  · cases hok.symm.trans herror
  · cases hok.symm.trans hfailed

/-- A run that ends with status 0 and leaves the tree as it was found no file to change. -/
theorem unchanged (h : Settles t t items k r) (hok : r.ending = .ok 0) (hfiles : r.files = t) :
    ∀ item ∈ items, Run.formatFile t item = .ok .unchanged := by
  have htake : items.take k = items := by rw [h.length_of_ok hok, List.take_length]
  have hnone : ¬∃ item ∈ items, ∃ l after, item.Changes t l after := by
    intro hsome
    obtain ⟨front, item, back, hsplit, ⟨l, after, hchanges⟩, hback⟩ := exists_last_mem hsome
    have hafter : r.files.file? l = some after :=
      h.overwritten (htake.trans hsplit) hchanges fun item' hmem after' hchanges' =>
        hback item' hmem ⟨l, after', hchanges'⟩
    obtain ⟨hlocate, before, hitem, hne⟩ := hchanges
    obtain ⟨l', hlocate', hbefore⟩ := FileTree.read_eq_ok_iff.mp hitem.read
    obtain rfl : l = l' := Except.ok.inj (hlocate.symm.trans hlocate')
    rw [hfiles] at hafter
    exact hne (Option.some.inj (hafter.symm.trans hbefore))
  intro item hmem
  obtain ⟨before, after, hitem⟩ := h.formatted item (htake.symm ▸ hmem)
  by_cases hsame : after = before
  · rw [hitem.formatFile, if_pos hsame]
  · obtain ⟨l, hlocate, -⟩ := FileTree.read_eq_ok_iff.mp hitem.read
    exact absurd ⟨item, hmem, l, after, hlocate, before, hitem, hsame⟩ hnone

end Settles

namespace Run

variable {t u u' : FileTree} {results : List (String × Except ToolError FileOutcome)}
  {changed changed' : Nat}

theorem settle_true_files : (settle true changed u results).files = u := by
  induction results generalizing changed with
  | nil =>
      rw [settle, finish]
      split <;> rfl
  | cons result rest ih =>
      obtain ⟨path, outcome⟩ := result
      cases outcome with
      | error e => rfl
      | ok outcome =>
          cases outcome with
          | unchanged => exact ih
          | changed text => exact ih
          | failed message => rfl

theorem settle_true_ok_iff :
    (settle true changed u results).ending = .ok 0 ↔
      changed = 0 ∧ ∀ result ∈ results, result.2 = .ok .unchanged := by
  induction results generalizing changed with
  | nil =>
      rw [settle, finish]
      by_cases hchanged : changed = 0
      · simp [hchanged, RunReport.silent]
      · simp [hchanged, RunReport.silent, RunReport.saying]
  | cons result rest ih =>
      obtain ⟨path, outcome⟩ := result
      cases outcome with
      | error e => simp [settle, RunReport.silent]
      | ok outcome =>
          cases outcome with
          | unchanged =>
              rw [settle, ih]
              simp
          | changed text => simp [settle, RunReport.saying, ih]
          | failed message => simp [settle, RunReport.silent, RunReport.saying]

/-- Whether a run writes or not, it stops at the same error. -/
theorem settle_error_iff (e : ToolError) :
    (settle true changed u results).ending = .error e ↔
      (settle false changed' u' results).ending = .error e := by
  induction results generalizing changed changed' u u' with
  | nil =>
      have hok : ∀ status : Nat, (Except.ok status : Except ToolError Nat) ≠ .error e := by
        intro status h
        cases h
      rw [settle, settle, (finish_false changed' u').2, finish]
      split
      · exact iff_of_false (hok 0) (hok 0)
      · exact iff_of_false (hok 1) (hok 0)
  | cons result rest ih =>
      obtain ⟨path, outcome⟩ := result
      cases outcome with
      | error e' => exact .rfl
      | ok outcome =>
          cases outcome with
          | unchanged => exact ih
          | changed text => exact ih
          | failed message => exact .rfl

/-- Where no file changes nothing is written and nothing is said. -/
theorem settle_false_unchanged (h : ∀ result ∈ results, result.2 = .ok .unchanged) :
    settle false 0 u results = .silent u (.ok 0) := by
  induction results with
  | nil => rfl
  | cons result rest ih =>
      obtain ⟨path, outcome⟩ := result
      obtain rfl : outcome = .ok .unchanged := h _ List.mem_cons_self
      exact ih fun result hmem => h result (List.mem_cons_of_mem _ hmem)

theorem settle_confirms (t : FileTree) (items : List FileItem) :
    Confirms t (settle true 0 t (items.map fun item => (item.path, formatFile t item)))
      (settle false 0 t (items.map fun item => (item.path, formatFile t item))) where
  files := settle_true_files
  ok := by
    rw [settle_true_ok_iff]
    constructor
    · rintro ⟨-, hunchanged⟩
      rw [settle_false_unchanged hunchanged]
      exact ⟨rfl, rfl⟩
    · rintro ⟨hok, hfiles⟩
      obtain ⟨k, hk⟩ := settles_settle t items 0 (.refl t)
      refine ⟨rfl, fun result hmem => ?_⟩
      obtain ⟨item, hitem, rfl⟩ := List.mem_map.mp hmem
      exact hk.unchanged hok hfiles item hitem
  error := fun e => settle_error_iff e

/-- Where no result is settled the switches do not matter, and where results are settled they do
not choose them. -/
theorem formatFiles_cases (lib : RulesLibrary) (t : FileTree) (i : Invocation) :
    (∃ r : RunReport, r.files = t ∧
        ∀ tool, i.tool.Alike tool → formatFiles lib t { i with tool := tool } = r) ∨
      ∃ items : List FileItem, ∀ tool, i.tool.Alike tool →
        formatFiles lib t { i with tool := tool } = settle tool.dryRun 0 t
          (items.map fun item => (item.path, formatFile t item)) := by
  have hselect : ∀ tool, i.tool.Alike tool →
      FileItem.select lib t { i with tool := tool } = FileItem.select lib t i := by
    intro tool halike
    rw [FileItem.select, FileItem.select]
    dsimp only
    rw [halike.rules]
  by_cases hempty : i.files.isEmpty
  · exact .inl ⟨(RunReport.silent t (.ok 0)).saying "No files specified", rfl,
      fun tool _ => if_pos hempty⟩
  have hnonempty : ∀ tool : ToolOptions, ¬{ i with tool := tool }.files.isEmpty := fun _ => hempty
  cases hitems : FileItem.select lib t i with
  | error e =>
      refine .inl ⟨.silent t (.error e), rfl, fun tool halike => ?_⟩
      rw [formatFiles, if_neg (hnonempty tool), hselect tool halike, hitems]
  | ok items =>
      cases items with
      | nil =>
          refine .inl ⟨if i.tool.rules.isSome then .silent t (.ok 0)
            else (RunReport.silent t (.ok 0)).saying
              "No files checked, excluded by --exclude/--exclude-list option", ?_, ?_⟩
          · split <;> rfl
          · intro tool halike
            rw [formatFiles, if_neg (hnonempty tool), hselect tool halike, hitems, ← halike.rules]
      | cons item rest =>
          refine .inr ⟨item :: rest, fun tool halike => ?_⟩
          rw [formatFiles, if_neg (hnonempty tool), hselect tool halike, hitems]

theorem invoke_cases (lib : RulesLibrary) (t : FileTree) (i : Invocation) :
    (∃ r : RunReport, r.files = t ∧
        ∀ tool, i.tool.Alike tool → SameResult (invoke lib t { i with tool := tool }) r) ∨
      ∃ items : List FileItem, ∀ tool, i.tool.Alike tool →
        SameResult (invoke lib t { i with tool := tool })
          (settle tool.dryRun 0 t (items.map fun item => (item.path, formatFile t item))) := by
  by_cases hengine : !ToolError.availableVersions.contains (i.tool.engine.getD engineVersion)
  · refine .inl ⟨.silent t (.error (.unsupportedVersion (i.tool.engine.getD engineVersion))), rfl,
      fun tool halike => ?_⟩
    rw [← halike.engine] at hengine ⊢
    have hinvoke : invoke lib t { i with tool := tool } =
        .silent t (.error (.unsupportedVersion (tool.engine.getD engineVersion))) := if_pos hengine
    exact hinvoke ▸ .refl _
  by_cases hversion : i.tool.version
  · refine .inl ⟨⟨toolName ++ " " ++ toolVersion ++ " with Astyle v" ++
      i.tool.engine.getD engineVersion ++ "\n", [], t, .ok 0⟩, rfl, fun tool halike => ?_⟩
    rw [← halike.engine] at hengine ⊢
    rw [← halike.version] at hversion
    have hinvoke : invoke lib t { i with tool := tool } = ⟨toolName ++ " " ++ toolVersion ++
        " with Astyle v" ++ tool.engine.getD engineVersion ++ "\n", [], t, .ok 0⟩ :=
      (if_neg hengine).trans (if_pos hversion)
    exact hinvoke ▸ .refl _
  have hformat : ∀ tool, i.tool.Alike tool →
      SameResult (invoke lib t { i with tool := tool })
        (formatFiles lib t { i with tool := tool }) := by
    intro tool halike
    rw [← halike.engine] at hengine
    rw [← halike.version] at hversion
    have hinvoke : invoke lib t { i with tool := tool } =
        if tool.quiet then { formatFiles lib t { i with tool := tool } with diagnostics := [] }
        else formatFiles lib t { i with tool := tool } := (if_neg hengine).trans (if_neg hversion)
    rw [hinvoke]
    split <;> exact ⟨rfl, rfl, rfl⟩
  rcases formatFiles_cases lib t i with ⟨r, hfiles, h⟩ | ⟨items, h⟩
  · exact .inl ⟨r, hfiles, fun tool halike => h tool halike ▸ hformat tool halike⟩
  · exact .inr ⟨items, fun tool halike => h tool halike ▸ hformat tool halike⟩

theorem invoke_confirms (lib : RulesLibrary) (t : FileTree) (i : Invocation) :
    Confirms t (invoke lib t { i with tool.dryRun := true })
      (invoke lib t { i with tool.dryRun := false }) := by
  have halike := fun on => Switch.alike_set .dryRun on i.tool
  rcases invoke_cases lib t i with ⟨r, hfiles, h⟩ | ⟨items, h⟩
  · exact (Confirms.refl hfiles).congr (h _ (halike true)) (h _ (halike false))
  · exact (settle_confirms t items).congr (h _ (halike true)) (h _ (halike false))

theorem invoke_quiet (lib : RulesLibrary) (t : FileTree) (i : Invocation) :
    SameResult (invoke lib t { i with tool.quiet := true })
      (invoke lib t { i with tool.quiet := false }) := by
  have halike := fun on => Switch.alike_set .quiet on i.tool
  rcases invoke_cases lib t i with ⟨r, -, h⟩ | ⟨items, h⟩
  · exact (h _ (halike true)).trans (h _ (halike false)).symm
  · exact (h _ (halike true)).trans (h _ (halike false)).symm

end Run

/-- The first command line asks for the same as the second, with a switch turned on. -/
def Command.TurnsOn (reader : ArgumentReader) (t : FileTree) (switch : Switch)
    (on off : List String) : Prop :=
  readWith reader t on = (readWith reader t off).map (map (switch.set true))

section Lines

variable {lib : Libraries} {t : FileTree} {switch : Switch} {on off : List String}

theorem Switch.exists_set (switch : Switch) (tool : ToolOptions) :
    ∃ was, switch.set was tool = tool := by
  cases switch with
  | dryRun => exact ⟨tool.dryRun, rfl⟩
  | quiet => exact ⟨tool.quiet, rfl⟩

/-- Two command lines of which one turns a switch on end alike before anything is invoked, or invoke
the same but for the switch. -/
theorem runWith_cases (h : Command.TurnsOn lib.arguments t switch on off) :
    (∃ r : RunReport, r.files = t ∧ runWith lib t on = r ∧ runWith lib t off = r) ∨
      ∃ (i : Invocation) (was : Bool),
        runWith lib t on = Run.invoke lib.rules t { i with tool := switch.set true i.tool } ∧
        runWith lib t off = Run.invoke lib.rules t { i with tool := switch.set was i.tool } := by
  rw [runWith, runWith, h]
  cases Command.readWith lib.arguments t off with
  | error e => exact .inl ⟨.silent t (.error e), rfl, rfl, rfl⟩
  | ok command =>
      cases command with
      | @help usage =>
          exact .inl ⟨{ RunReport.silent t (.ok 0) with output := usage }, rfl, rfl, rfl⟩
      | run i =>
          obtain ⟨was, hwas⟩ := switch.exists_set i.tool
          refine .inr ⟨i, was, rfl, ?_⟩
          rw [hwas]

theorem runWith_confirms (h : Command.TurnsOn lib.arguments t .dryRun on off) :
    Confirms t (runWith lib t on) (runWith lib t off) := by
  rcases runWith_cases h with ⟨r, hfiles, hon, hoff⟩ | ⟨i, was, hon, hoff⟩
  · rw [hon, hoff]
    exact .refl hfiles
  · have hinvoke := Run.invoke_confirms lib.rules t i
    rw [hon, hoff]
    cases was with
    | false => exact hinvoke
    | true => exact .refl hinvoke.files

theorem runWith_quiet (h : Command.TurnsOn lib.arguments t .quiet on off) :
    SameResult (runWith lib t on) (runWith lib t off) := by
  rcases runWith_cases h with ⟨r, -, hon, hoff⟩ | ⟨i, was, hon, hoff⟩
  · rw [hon, hoff]
    exact .refl r
  · rw [hon, hoff]
    cases was with
    | false => exact Run.invoke_quiet lib.rules t i
    | true => exact .refl _

/-- The switches may stand wherever the options in front leave their arguments whole.  Of a line
with another option in front nothing is said: there the switch may be the value of an argument, or
stand behind a request for help. -/
theorem runWith_insert (hreader : lib.arguments.ReadsSwitches) {front back : List String}
    (hfront : ∀ a ∈ front, Command.isOption a = true ∧ Intake.LeavesWhole a) :
    Confirms t (runWith lib t (front ++ "--dry-run" :: back)) (runWith lib t (front ++ back)) ∧
      SameResult (runWith lib t (front ++ "--quiet" :: back)) (runWith lib t (front ++ back)) :=
  ⟨runWith_confirms (Command.readWith_insert hreader t .dryRun hfront),
    runWith_quiet (Command.readWith_insert hreader t .quiet hfront)⟩

end Lines

/-- A dry run changes no file, ends with status 0 exactly if the run without the switch does and
changes no file, and with an error exactly if that one does.  A quiet run writes, leaves and ends
with the same.  That holds of what any two invocations do that differ in the switch, and of any two
command lines that ask for the same but for it, whatever reads their arguments. -/
theorem run_switches (lib : Libraries) (t : FileTree) :
    (∀ i : Invocation, Confirms t (Run.invoke lib.rules t { i with tool.dryRun := true })
        (Run.invoke lib.rules t { i with tool.dryRun := false })) ∧
      (∀ i : Invocation, SameResult (Run.invoke lib.rules t { i with tool.quiet := true })
        (Run.invoke lib.rules t { i with tool.quiet := false })) ∧
      (∀ check fix, Command.TurnsOn lib.arguments t .dryRun check fix →
        Confirms t (runWith lib t check) (runWith lib t fix)) ∧
      ∀ quiet loud, Command.TurnsOn lib.arguments t .quiet quiet loud →
        SameResult (runWith lib t quiet) (runWith lib t loud) :=
  ⟨Run.invoke_confirms lib.rules t, Run.invoke_quiet lib.rules t, fun _ _ => runWith_confirms,
    fun _ _ => runWith_quiet⟩

/-- A file that formatting changes, with the switches in front of and behind another option. -/
theorem run_switches_pad_comma :
    let t : FileTree := ⟨[("a.c", Utf8.encode "f(a,b);\n")], []⟩
    Confirms t (run t ["--dry-run", "--pad-comma", "a.c"]) (run t ["--pad-comma", "a.c"]) ∧
      SameResult (run t ["--quiet", "--pad-comma", "a.c"]) (run t ["--pad-comma", "a.c"]) ∧
      Confirms t (run t ["--pad-comma", "--dry-run", "a.c"]) (run t ["--pad-comma", "a.c"]) ∧
        SameResult (run t ["--pad-comma", "--quiet", "a.c"]) (run t ["--pad-comma", "a.c"]) := by
  intro t
  have hnone : ∀ a ∈ ([] : List String), Command.isOption a = true ∧ Intake.LeavesWhole a := nofun
  have hpad : ∀ a ∈ ["--pad-comma"], Command.isOption a = true ∧ Intake.LeavesWhole a := by decide
  have hin : ∀ s : Switch, Command.TurnsOn Libraries.standard.arguments t s
      [s.argument, "--pad-comma", "a.c"] ["--pad-comma", "a.c"] :=
    fun s => Command.readWith_insert ToolOptions.readsSwitches t s hnone
  have hbehind : ∀ s : Switch, Command.TurnsOn Libraries.standard.arguments t s
      ["--pad-comma", s.argument, "a.c"] ["--pad-comma", "a.c"] :=
    fun s => Command.readWith_insert ToolOptions.readsSwitches t s hpad
  obtain ⟨-, -, hcheck, hquiet⟩ := run_switches .standard t
  exact ⟨hcheck _ _ (hin .dryRun), hquiet _ _ (hin .quiet), hcheck _ _ (hbehind .dryRun),
    hquiet _ _ (hbehind .quiet)⟩

end Beautifier
