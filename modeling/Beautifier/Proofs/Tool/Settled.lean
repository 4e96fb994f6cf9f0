/-
What a run writes.

All files are read and formatted before the first one is written, and the
results are settled in the order of the command line.  `Settles` says what
comes of it: the items in front of the first that cannot be read or formatted
are those that count, each of them is formatted from what its file held before
the run, and nothing else of the tree is touched (`run_writes`).
-/
import Beautifier.Tool.Run
import Beautifier.Proofs.Tool.Circles
import Beautifier.Proofs.Tool.Places
import Beautifier.Proofs.Transform.Answer

namespace Beautifier

namespace FileItem

/-- The file of an item holds `before`, and formatted under the options of the item `after`. -/
structure FormatsTo (t : FileTree) (item : FileItem) (before after : List UInt8) : Prop where
  read : t.read item.path = .ok before
  formatted : ∃ text o, Utf8.encode text = before ∧ parseOptions item.options = .ok o ∧
    Utf8.encode (format o text) = after

/-- The file of an item can be read but not formatted: it is not UTF-8, or the options of the
item are refused. -/
def Refused (t : FileTree) (item : FileItem) : Prop :=
  ∃ source, t.read item.path = .ok source ∧ (¬Utf8.Valid source ∨ rejectedOf item.options ≠ [])

/-- The file of an item stands at a place, and formatting it changes it to `after`. -/
def Changes (t : FileTree) (item : FileItem) (l : Location) (after : List UInt8) : Prop :=
  t.locate item.path = .ok l ∧ ∃ before, item.FormatsTo t before after ∧ after ≠ before

variable {t : FileTree} {item : FileItem}

theorem FormatsTo.unique {before after before' after' : List UInt8}
    (h : item.FormatsTo t before after) (h' : item.FormatsTo t before' after') :
    before = before' ∧ after = after' := by
  obtain ⟨hread, text, o, htext, ho, hafter⟩ := h
  obtain ⟨hread', text', o', htext', ho', hafter'⟩ := h'
  have hbefore : before = before' := Except.ok.inj (hread.symm.trans hread')
  have hsame : text = text' := by
    have hdecode := Utf8.decode_encode text
    rw [htext, hbefore, ← htext', Utf8.decode_encode] at hdecode
    exact (Except.ok.inj hdecode).symm
  have hoptions : o = o' := Except.ok.inj (ho.symm.trans ho')
  exact ⟨hbefore, by rw [← hafter, ← hafter', hsame, hoptions]⟩

/-- A file is formatted, or cannot be formatted, or cannot be read. -/
theorem formatFile_cases (t : FileTree) (item : FileItem) :
    (∃ e, t.read item.path = .error e ∧
        Run.formatFile t item = .error (.read item.path e)) ∨
      (item.Refused t ∧ ∃ message, Run.formatFile t item = .ok (.failed message)) ∨
      ∃ before after, item.FormatsTo t before after ∧ Run.formatFile t item
        = .ok (if after = before then .unchanged else .changed after) := by
  unfold Run.formatFile
  cases hread : t.read item.path with
  | error e => exact .inl ⟨e, rfl, rfl⟩
  | ok source =>
      refine .inr ?_
      have hanswers := answers_transform source (Utf8.encode item.options) .exact
      dsimp only
      generalize transform source (Utf8.encode item.options) .exact = outcome at hanswers ⊢
      cases hanswers with
      | input hsource =>
          exact .inl ⟨⟨source, hread, .inl hsource.not_valid⟩, _, rfl⟩
      | options hsource hoptions hrejected =>
          rw [Utf8.decodeLossy_encode] at hoptions
          exact .inl ⟨⟨source, hread, .inr (hoptions ▸ hrejected)⟩, _, rfl⟩
      | allocation hsource hoptions hmemory =>
          exact absurd ⟨_, rfl, by rw [List.length_replicate]⟩ hmemory
      | @output text o block b hsource hoptions hmemory hroom hbytes hrest hlength =>
          rw [Utf8.decodeLossy_encode] at hoptions
          have hlength' := length_outputBytes o text
          have hb : b.bytes = Utf8.encode (format o text) := by
            have htake : b.bytes = b.bytesWithNul.take b.length := by
              rw [Buffer.bytes, Buffer.bytesWithNul, List.take_take,
                Nat.min_eq_left (Nat.le_succ _)]
            rw [htake, hbytes, outputBytes, List.take_left' (by omega)]
          refine .inr ⟨source, b.bytes, ⟨hread, text, o, hsource, hoptions, hb.symm⟩, ?_⟩
          simp only [beq_iff_eq]

theorem eq_nil_of_select {lib : RulesLibrary} {i : Invocation} {items : List FileItem}
    (hselect : select lib t i = .ok items) (hfiles : i.files = []) : items = [] := by
  rw [select, hfiles] at hselect
  cases hrules : i.tool.rules with
  | some path =>
      cases hread : readRules lib t path with
      | error e => simp [hrules, hread, Except.map] at hselect
      | ok rules => simpa [hrules, hread, Except.map, ofRules] using hselect.symm
  | none =>
      cases hpatterns : Path.Pattern.ofStrings i.excludes with
      | error text => simp [hrules, ofPatterns, Path.exclude, hpatterns, Except.map] at hselect
      | ok ps => simpa [hrules, ofPatterns, Path.exclude, hpatterns, Except.map] using hselect.symm

end FileItem

/-- What comes of items that are settled in order: `k` of them are formatted, and the next one,
if there is any, ends the run.  The files are read from the tree `t`, and stand in the tree `u`
when the first item is settled. -/
structure Settles (t u : FileTree) (items : List FileItem) (k : Nat) (r : RunReport) : Prop where
  formatted : ∀ item ∈ items.take k, ∃ before after, item.FormatsTo t before after
  ending : (k = items.length ∧ r.ending = .ok 0) ∨
    ∃ item, items[k]? = some item ∧
      ((∃ e, t.read item.path = .error e ∧ r.ending = .error (.read item.path e)) ∨
        item.Refused t ∧ r.ending = .ok 1)
  places : FileTree.SamePlaces u r.files
  /-- The last of the items that change a file says what it holds. -/
  overwritten : ∀ {front item back l after}, items.take k = front ++ item :: back →
    item.Changes t l after → (∀ item' ∈ back, ∀ after', ¬item'.Changes t l after') →
      r.files.file? l = some after
  kept : ∀ {l}, (∀ item ∈ items.take k, ∀ after, ¬item.Changes t l after) →
    r.files.file? l = u.file? l

namespace Settles

variable {t u : FileTree} {items : List FileItem} {k : Nat} {r : RunReport}

theorem congr {r' : RunReport} (h : Settles t u items k r) (hfiles : r'.files = r.files)
    (hending : r'.ending = r.ending) : Settles t u items k r' where
  formatted := h.formatted
  ending := hending ▸ h.ending
  places := hfiles ▸ h.places
  overwritten := hfiles ▸ h.overwritten
  kept := hfiles ▸ h.kept

theorem stop {item : FileItem} {rest : List FileItem} {ending : Except ToolError Nat}
    (h : (∃ e, t.read item.path = .error e ∧ ending = .error (.read item.path e)) ∨
      item.Refused t ∧ ending = .ok 1) :
    Settles t u (item :: rest) 0 (.silent u ending) where
  formatted := fun _ hmem => absurd hmem List.not_mem_nil
  ending := .inr ⟨item, rfl, h⟩
  places := .refl u
  overwritten := fun hsplit => by simp at hsplit
  kept := fun _ => rfl

theorem done (t u : FileTree) : Settles t u [] 0 (.silent u (.ok 0)) where
  formatted := fun _ hmem => absurd hmem List.not_mem_nil
  ending := .inl ⟨rfl, rfl⟩
  places := .refl u
  overwritten := fun hsplit => by simp at hsplit
  kept := fun _ => rfl

theorem cons {v : FileTree} {item : FileItem} {rest : List FileItem} {before after : List UInt8}
    (hitem : item.FormatsTo t before after) (hplaces : FileTree.SamePlaces u v)
    (hchanged : ∀ {l after'}, item.Changes t l after' → v.file? l = some after')
    (hkept : ∀ {l}, (∀ after', ¬item.Changes t l after') → v.file? l = u.file? l)
    (h : Settles t v rest k r) : Settles t u (item :: rest) (k + 1) r where
  formatted := by
    rintro item' hmem
    rcases List.mem_cons.mp hmem with rfl | hmem
    · exact ⟨before, after, hitem⟩
    · exact h.formatted item' hmem
  ending := by
    rcases h.ending with ⟨hk, hok⟩ | hstop
    · exact .inl ⟨congrArg Nat.succ hk, hok⟩
    · exact .inr hstop
  places := hplaces.trans h.places
  overwritten := by
    intro front item' back l after' hsplit hchanges hlast
    rw [List.take_succ_cons] at hsplit
    cases front with
    | nil =>
        cases hsplit
        rw [h.kept hlast]
        exact hchanged hchanges
    | cons _ front =>
        exact h.overwritten (List.cons.inj hsplit).2 hchanges hlast
  kept := by
    intro l hnone
    rw [h.kept fun item' hmem => hnone item' (List.mem_cons_of_mem _ hmem)]
    exact hkept (hnone item List.mem_cons_self)

end Settles

namespace Run

theorem finish_false (changed : Nat) (u : FileTree) :
    (finish false changed u).files = u ∧ (finish false changed u).ending = .ok 0 := by
  rw [finish]
  split <;> exact ⟨rfl, rfl⟩

/-- Settling the results of formatting, in a tree with the same places as the one that the files
were read from. -/
theorem settles_settle (t : FileTree) (items : List FileItem) (changed : Nat) {u : FileTree}
    (hu : FileTree.SamePlaces t u) :
    ∃ k, Settles t u items k
      (settle false changed u (items.map fun item => (item.path, formatFile t item))) := by
  induction items generalizing changed u with
  | nil =>
      obtain ⟨hfiles, hending⟩ := finish_false changed u
      exact ⟨0, (Settles.done t u).congr hfiles hending⟩
  | cons item rest ih =>
      rw [List.map_cons]
      rcases FileItem.formatFile_cases t item with
        ⟨e, hread, hformat⟩ | ⟨hrefused, message, hformat⟩ | ⟨before, after, hitem, hformat⟩
      · rw [hformat]
        exact ⟨0, .stop (.inl ⟨e, hread, rfl⟩)⟩
      · rw [hformat]
        exact ⟨0, (Settles.stop (.inr ⟨hrefused, rfl⟩)).congr rfl rfl⟩
      rw [hformat]
      have hchanges : ∀ {l after'}, item.Changes t l after' → after' = after ∧ after ≠ before := by
        rintro l after' ⟨-, before', hitem', hne⟩
        obtain ⟨rfl, rfl⟩ := hitem.unique hitem'
        exact ⟨rfl, hne⟩
      obtain ⟨l, hlocate, hfile⟩ := FileTree.read_eq_ok_iff.mp hitem.read
      split
      · -- the file stays as it is
        next hsame =>
        obtain ⟨k, hk⟩ := ih changed hu
        exact ⟨k + 1, .cons hitem (.refl u) (fun h => absurd hsame (hchanges h).2)
          (fun _ => rfl) hk⟩
      · next hne =>
        have hwrite : ∀ place, (u.write item.path after).file? place
            = if l = place then some after else u.file? place :=
          FileTree.file?_write (by rw [hu.locate, hlocate]) (by rw [hu.isSome_file?, hfile]; rfl)
        obtain ⟨k, hk⟩ := ih (changed + 1) (hu.trans (FileTree.samePlaces_write u item.path after))
        refine ⟨k + 1, (Settles.cons hitem (FileTree.samePlaces_write u item.path after)
          ?_ ?_ hk).congr rfl rfl⟩
        · intro place after' hchange
          have hplace : l = place := Except.ok.inj (hlocate.symm.trans hchange.1)
          rw [hwrite, if_pos hplace, (hchanges hchange).1]
        · intro place hnone
          rw [hwrite, if_neg]
          rintro rfl
          exact hnone after ⟨hlocate, before, hitem, hne⟩

variable {lib : RulesLibrary} {t : FileTree} {i : Invocation}

/-- The files that an invocation selects are settled in their order. -/
theorem settles_formatFiles {items : List FileItem} (hselect : FileItem.select lib t i = .ok items)
    (hdry : i.tool.dryRun = false) : ∃ k, Settles t t items k (formatFiles lib t i) := by
  rw [formatFiles]
  split
  · next hempty =>
    have hitems : items = [] := FileItem.eq_nil_of_select hselect (List.isEmpty_iff.mp hempty)
    subst hitems
    exact ⟨0, (Settles.done t t).congr rfl rfl⟩
  · rw [hselect]
    cases items with
    | nil =>
        refine ⟨0, (Settles.done t t).congr ?_ ?_⟩ <;> (dsimp only; split <;> rfl)
    | cons item rest =>
        rw [hdry]
        exact settles_settle t (item :: rest) 0 (.refl t)

/-- An invocation whose files are not settled: the engine that it asks for is not there, it asks
for the version, or its rules or patterns are refused. -/
inductive EndsEarly (lib : RulesLibrary) (t : FileTree) (i : Invocation) : Prop
  | engine (h : i.tool.engine.getD engineVersion ∉ ToolError.availableVersions)
  | version (h : i.tool.version = true)
  | selection {e : ToolError} (h : FileItem.select lib t i = .error e)

theorem files_invoke_of_endsEarly (h : EndsEarly lib t i) : (invoke lib t i).files = t := by
  rw [invoke]
  dsimp only
  split
  · rfl
  next hengine =>
  split
  · rfl
  next hversion =>
  cases h with
  | engine h => simp [h] at hengine
  | version h => exact absurd h hversion
  | @selection e h =>
      have hfiles : (formatFiles lib t i).files = t := by
        rw [formatFiles, h]
        split <;> rfl
      split <;> exact hfiles

theorem settles_invoke {items : List FileItem} (hearly : ¬EndsEarly lib t i)
    (hselect : FileItem.select lib t i = .ok items) (hdry : i.tool.dryRun = false) :
    ∃ k, Settles t t items k (invoke lib t i) := by
  have hengine : i.tool.engine.getD engineVersion ∈ ToolError.availableVersions := by
    by_contra h
    exact hearly (.engine h)
  have hversion : i.tool.version = false := by
    rw [← Bool.not_eq_true]
    exact fun h => hearly (.version h)
  obtain ⟨k, hk⟩ := settles_formatFiles hselect hdry
  refine ⟨k, ?_⟩
  simp only [invoke, List.contains_iff_mem.mpr hengine, hversion, Bool.not_true,
    Bool.false_eq_true, if_false]
  split
  · exact hk.congr rfl rfl
  · exact hk

end Run

/-- Whatever libraries the tool is built on, a run that does not come to its files leaves the tree
as it is.  One that does, and is no dry run, overwrites the files of the items in front of the first
that cannot be read or formatted, where formatting changes them, each with what it makes of the
contents before the run. -/
theorem run_writes (lib : Libraries) (t : FileTree) (arguments : List String) :
    ((∀ i, Command.readWith lib.arguments t arguments = .ok (.run i) →
          Run.EndsEarly lib.rules t i) →
        (runWith lib t arguments).files = t) ∧
      ∀ i items, Command.readWith lib.arguments t arguments = .ok (.run i) →
        ¬Run.EndsEarly lib.rules t i → FileItem.select lib.rules t i = .ok items →
          i.tool.dryRun = false → ∃ k, Settles t t items k (runWith lib t arguments) := by
  constructor
  · intro hearly
    rw [runWith]
    cases hcommand : Command.readWith lib.arguments t arguments with
    | error e => rfl
    | ok command =>
        cases command with
        | help => rfl
        | run i => exact Run.files_invoke_of_endsEarly (hearly i hcommand)
  · intro i items hcommand hearly hselect hdry
    rw [runWith, hcommand]
    exact Run.settles_invoke hearly hselect hdry

/-- The first file is written, the second is no text, and the third is not reached; and a run that
asks for the version writes nothing. -/
theorem run_writes_first :
    let t : FileTree := ⟨[("a.c", Utf8.encode "f(a,b);\n"), ("b.c", [0xFF]),
      ("c.c", Utf8.encode "f(a,b);\n")], []⟩
    (∃ k, Settles t t [⟨"a.c", "--pad-comma"⟩, ⟨"b.c", "--pad-comma"⟩, ⟨"c.c", "--pad-comma"⟩] k
        (run t ["--pad-comma", "a.c", "b.c", "c.c"])) ∧
      (run t ["--version", "a.c"]).files = t := by
  intro t
  constructor
  · have hends : Intake.Ends t 1 (Intake.ofOptions ["--pad-comma"])
        (.ok ⟨[], [], ["--pad-comma"], []⟩) := .next nofun rfl (.done rfl)
    have hread : Command.read t ["--pad-comma", "a.c", "b.c", "c.c"] =
        .ok (.run ⟨.none, ["--pad-comma"], [], ["a.c", "b.c", "c.c"]⟩) := by
      rw [Command.read, Command.readWith_eq_of_ends hends]
      rfl
    have hselect : FileItem.select .standard t ⟨.none, ["--pad-comma"], [], ["a.c", "b.c", "c.c"]⟩ =
        .ok [⟨"a.c", "--pad-comma"⟩, ⟨"b.c", "--pad-comma"⟩, ⟨"c.c", "--pad-comma"⟩] := rfl
    refine (run_writes .standard t _).2 _ _ hread ?_ hselect rfl
    rintro (h | h | h)
    · exact h (by decide)
    · cases h
    · cases hselect.symm.trans h
  · have hends : Intake.Ends t 1 (Intake.ofOptions ["--version"])
        (.ok ⟨[], ["--version"], [], []⟩) := .next nofun rfl (.done rfl)
    have hread : Command.read t ["--version", "a.c"] =
        .ok (.run ⟨{ ToolOptions.none with version := true }, [], [], ["a.c"]⟩) := by
      rw [Command.read, Command.readWith_eq_of_ends hends]
      rfl
    refine (run_writes .standard t _).1 fun i hi => ?_
    cases hread.symm.trans hi
    exact .version rfl

end Beautifier
