/-
What an option brings in.

Taking an option adds to what has been taken in and reads nothing of it, so an
option brings in the same whatever was taken before (`takeOption_brings`).
`Brings` lists what that is, kind by kind.  A run of the queue takes the
options that are reached and no other (`reached_cons`).
-/
import Beautifier.Proofs.Tool.Circles

namespace Beautifier.Intake

/-- What has been taken in, and more behind it. -/
def append (s b : Intake) : Intake :=
  ⟨s.pending ++ b.pending, s.arguments ++ b.arguments, s.forwarded ++ b.forwarded,
    s.excludes ++ b.excludes⟩

/-- An option that the tool does not know, and forwards to the formatter. -/
def IsForwarded (option : String) : Prop :=
  (splitOption option).1 ∉ "help" :: (ToolOptions.switches ++ ToolOptions.valued)

instance (option : String) : Decidable (IsForwarded option) :=
  inferInstanceAs (Decidable (_ ∉ _))

/-- What an option brings in: options that wait, arguments for the tool, options for the formatter
and exclude patterns. -/
inductive Brings (t : FileTree) (option : String) : Intake → Prop
  | help (hname : (splitOption option).1 = "help") : Brings t option ⟨[], ["--help"], [], []⟩
  | switch (hname : (splitOption option).1 ∈ ToolOptions.switches) :
      Brings t option
        ⟨[], ("--" ++ (splitOption option).1) :: (splitOption option).2.toList, [], []⟩
  | options {path : String} {lines : List String} (hname : (splitOption option).1 = "options")
      (hvalue : (splitOption option).2 = some path) (hlines : t.lines path = .ok lines) :
      Brings t option ⟨lines, ["--" ++ (splitOption option).1, path], [], []⟩
  | exclude {pattern : String} (hname : (splitOption option).1 = "exclude")
      (hvalue : (splitOption option).2 = some pattern) :
      Brings t option ⟨[], ["--" ++ (splitOption option).1, pattern], [], [pattern]⟩
  | excludeList {path : String} {lines : List String}
      (hname : (splitOption option).1 = "exclude-list")
      (hvalue : (splitOption option).2 = some path) (hlines : t.lines path = .ok lines) :
      Brings t option ⟨[], ["--" ++ (splitOption option).1, path], [], lines⟩
  | value {value : String}
      (hname : (splitOption option).1 = "astyle-version" ∨ (splitOption option).1 = "rules")
      (hvalue : (splitOption option).2 = some value) :
      Brings t option ⟨[], ["--" ++ (splitOption option).1, value], [], []⟩
  | forwarded (hname : IsForwarded option) : Brings t option ⟨[], [], [option], []⟩

variable {t : FileTree} {s s' b : Intake} {option a : String}

theorem lines_ne_rulesConflict {path : String} {e : ToolError} (h : t.lines path = .error e) :
    e ≠ .rulesConflict := by
  rw [FileTree.lines] at h
  split at h
  · cases h
  · cases h
    intro heq
    cases heq

/-- An option with a name that takes a value fails, or brings in what its value says. -/
theorem takeOption_brings_valued (hname : (splitOption option).1 ∈ ToolOptions.valued) :
    (∃ e, e ≠ .rulesConflict ∧ ∀ s, takeOption t s option = .error e) ∨
      ∃ b, Brings t option b ∧ ∀ s, takeOption t s option = .ok (s.append b) := by
  have htake := fun s => takeOption_of_valued t s hname
  cases hvalue : (splitOption option).2.filter (· != "") with
  | none =>
      refine .inl ⟨.missingValue (splitOption option).1, nofun, fun s => ?_⟩
      rw [htake, hvalue]
  | some value =>
      have hsome : (splitOption option).2 = some value := (Option.filter_eq_some_iff.mp hvalue).1
      have hbring : ∀ s, takeOption t s option =
          (s.bringIn t (splitOption option).1 value).map
            fun s => s.takeValued (splitOption option).1 value := by
        intro s
        rw [htake, hvalue]
      have hcases : ∀ name ∈ ToolOptions.valued, name = "options" ∨ name = "exclude" ∨
          name = "exclude-list" ∨ name = "astyle-version" ∨ name = "rules" := by decide
      rcases hcases _ hname with hoptions | hexclude | hlist | hother
      · cases hlines : t.lines value with
        | error e =>
            refine .inl ⟨e, lines_ne_rulesConflict hlines, fun s => ?_⟩
            rw [hbring, hoptions, bringIn, hlines]
            rfl
        | ok lines =>
            refine .inr ⟨_, .options hoptions hsome hlines, fun s => ?_⟩
            rw [hbring, hoptions, bringIn, hlines]
            simp [Except.map, append, takeValued]
      · refine .inr ⟨_, .exclude hexclude hsome, fun s => ?_⟩
        rw [hbring, hexclude, bringIn]
        simp [Except.map, append, takeValued]
      · cases hlines : t.lines value with
        | error e =>
            refine .inl ⟨e, lines_ne_rulesConflict hlines, fun s => ?_⟩
            rw [hbring, hlist, bringIn, hlines]
            rfl
        | ok lines =>
            refine .inr ⟨_, .excludeList hlist hsome hlines, fun s => ?_⟩
            rw [hbring, hlist, bringIn, hlines]
            simp [Except.map, append, takeValued]
      · refine .inr ⟨_, .value hother hsome, fun s => ?_⟩
        rw [hbring]
        rcases hother with hname | hname <;> rw [hname] <;>
          simp [bringIn, Except.map, append, takeValued]

/-- An option fails, whatever was taken before, or adds what it brings in. -/
theorem takeOption_brings (t : FileTree) (option : String) :
    (∃ e, e ≠ .rulesConflict ∧ ∀ s, takeOption t s option = .error e) ∨
      ∃ b, Brings t option b ∧ ∀ s, takeOption t s option = .ok (s.append b) := by
  by_cases hvalued : (splitOption option).1 ∈ ToolOptions.valued
  · exact takeOption_brings_valued hvalued
  right
  by_cases hhelp : (splitOption option).1 = "help"
  · refine ⟨_, .help hhelp, fun s => ?_⟩
    simp [takeOption, hhelp, takeSwitch, append]
  by_cases hswitch : (splitOption option).1 ∈ ToolOptions.switches
  · refine ⟨_, .switch hswitch, fun s => ?_⟩
    simp [takeOption, hhelp, hswitch, takeSwitch, append]
  · have hname : IsForwarded option := by
      simp only [IsForwarded, List.mem_cons, List.mem_append, not_or]
      exact ⟨hhelp, hswitch, hvalued⟩
    refine ⟨_, .forwarded hname, fun s => ?_⟩
    simp [takeOption, hhelp, hswitch, hvalued, append]

/-- The options that wait because of an option are those that it includes. -/
theorem Brings.pending_eq (h : Brings t option b) : b.pending = included t option := by
  have hother : (splitOption option).1 ≠ "options" → [] = included t option := by
    intro hname
    exact (if_neg hname).symm
  have hswitches : ∀ name ∈ ToolOptions.switches, name ≠ "options" := by decide
  cases h with
  | help hname => exact hother (by rw [hname]; decide)
  | switch hname => exact hother (hswitches _ hname)
  | options hname hvalue hlines =>
      rw [included, if_pos hname, hvalue, Option.bind_some, hlines]
      rfl
  | exclude hname => exact hother (by rw [hname]; decide)
  | excludeList hname => exact hother (by rw [hname]; decide)
  | value hname =>
      refine hother ?_
      rcases hname with hname | hname <;> rw [hname] <;> decide
  | forwarded hname =>
      refine hother fun hoptions => hname ?_
      rw [hoptions]
      decide

/-! ## A step of the queue -/

/-- A step fails because of the option in front, or takes it and adds what it brings in. -/
theorem step_brings (t : FileTree) (option : String) :
    (∃ e, e ≠ .rulesConflict ∧
        ∀ (s : Intake) rest, s.pending = option :: rest → s.step t = .error e) ∨
      ∃ b, Brings t option b ∧ ∀ (s : Intake) rest, s.pending = option :: rest →
        s.step t = .ok (append { s with pending := rest } b) := by
  have hstep : ∀ (s : Intake) rest, s.pending = option :: rest →
      s.step t = takeOption t { s with pending := rest } option := by
    intro s rest hpending
    rw [step, hpending]
  rcases takeOption_brings t option with ⟨e, hne, htake⟩ | ⟨b, hb, htake⟩
  · exact .inl ⟨e, hne, fun s rest hpending => (hstep s rest hpending).trans (htake _)⟩
  · exact .inr ⟨b, hb, fun s rest hpending => (hstep s rest hpending).trans (htake _)⟩

/-- What is reached from a queue: the option in front, and what is reached from the others and
from what it includes. -/
theorem reached_cons {rest : List String} :
    Reached t (option :: rest) a ↔ a = option ∨ Reached t (rest ++ included t option) a := by
  constructor
  · rintro ⟨c, hc, hreach⟩
    rcases List.mem_cons.mp hc with rfl | hc
    · rcases hreach.cases_head with rfl | ⟨d, hd, hreach⟩
      · exact .inl rfl
      · exact .inr ⟨d, List.mem_append_right _ hd, hreach⟩
    · exact .inr ⟨c, List.mem_append_left _ hc, hreach⟩
  · rintro (rfl | ⟨c, hc, hreach⟩)
    · exact ⟨a, List.mem_cons_self, .refl⟩
    · rcases List.mem_append.mp hc with hc | hc
      · exact ⟨c, List.mem_cons_of_mem _ hc, hreach⟩
      · exact ⟨option, List.mem_cons_self, hreach.head hc⟩

end Beautifier.Intake
