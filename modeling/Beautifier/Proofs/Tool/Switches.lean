/-
Switches on the command line.

`--dry-run` and `--quiet` set a field that no other argument sets.  A library
reads switches if it reads one as that wherever the arguments in front of it
are whole, which means that no option in front still waits for its value and
none asks for help (`ArgumentReader.ReadsSwitches`).  Then a command line with
the switch asks for the same as without it, but for the field
(`Command.readWith_insert`).

That is said of a switch behind options that leave their arguments whole
(`Intake.LeavesWhole`), and of no other.  A value given to a switch becomes an
argument of its own, which may be an option that takes the switch behind it as
its value (`--quiet=--exclude`); and behind a request for help a library may
refuse all options.

The reader defined here reads switches (`ToolOptions.readsSwitches`).
-/
import Beautifier.Proofs.Tool.Brought
import Beautifier.Tool.Run

namespace Beautifier

/-- A switch that says how a run goes about the files. -/
inductive Switch where
  | dryRun
  | quiet
deriving DecidableEq, Repr

namespace Switch

def name : Switch → String
  | dryRun => "dry-run"
  | quiet => "quiet"

def argument (s : Switch) : String := "--" ++ s.name

/-- The options of the tool with a switch turned on or off. -/
def set : Switch → Bool → ToolOptions → ToolOptions
  | dryRun, on, o => { o with dryRun := on }
  | quiet, on, o => { o with quiet := on }

variable (s : Switch) (o : ToolOptions)

@[simp] theorem rules_set (on : Bool) : (s.set on o).rules = o.rules := by
  cases s <;> rfl

end Switch

/-- Arguments none of which is cut off from its value or asks for help. -/
inductive Whole : List String → Prop
  | nil : Whole []
  | switch {name : String} {rest : List String} (hname : name ∈ ToolOptions.switches)
      (hrest : Whole rest) : Whole (("--" ++ name) :: rest)
  | valued {name value : String} {rest : List String} (hname : name ∈ ToolOptions.valued)
      (hrest : Whole rest) : Whole (("--" ++ name) :: value :: rest)

theorem Whole.append {front back : List String} (hfront : Whole front) (hback : Whole back) :
    Whole (front ++ back) := by
  induction hfront with
  | nil => exact hback
  | switch hname _ ih => exact ih.switch hname
  | valued hname _ ih => exact ih.valued hname

/-- A switch behind whole arguments is read as one, whatever stands behind it. -/
def ArgumentReader.ReadsSwitches (reader : ArgumentReader) : Prop :=
  ∀ (s : Switch) (front back : List String), Whole front →
    reader (front ++ s.argument :: back) = (reader (front ++ back)).map (s.set true)

/-! ## The queue with a switch -/

namespace Intake

/-- An option that makes whole arguments: it asks for no help, and if it is a switch it has no
value. -/
def LeavesWhole (option : String) : Prop :=
  (splitOption option).1 ≠ "help" ∧
    ((splitOption option).1 ∈ ToolOptions.switches → (splitOption option).2 = none)

instance (option : String) : Decidable (LeavesWhole option) :=
  inferInstanceAs (Decidable (_ ∧ (_ → _)))

/-- What has been taken in with one argument more, behind whole ones. -/
inductive Inserted (argument : String) : Intake → Intake → Prop
  | intro {pending front back forwarded excludes : List String} (hfront : Whole front) :
      Inserted argument ⟨pending, front ++ back, forwarded, excludes⟩
        ⟨pending, front ++ argument :: back, forwarded, excludes⟩

/-- Two queues come to their ends with one argument more in the second, or fail alike. -/
inductive EndsInserted (argument : String) :
    Except ToolError Intake → Except ToolError Intake → Prop
  | error (e : ToolError) : EndsInserted argument (.error e) (.error e)
  | ok {s s' : Intake} (h : Inserted argument s s') : EndsInserted argument (.ok s) (.ok s')

variable {t : FileTree} {s s' b : Intake} {option argument : String} {fuel : Nat}

theorem Brings.whole (h : Brings t option b) (hoption : LeavesWhole option) :
    Whole b.arguments := by
  cases h with
  | help hname => exact absurd hname hoption.1
  | switch hname =>
      rw [hoption.2 hname]
      exact .switch hname .nil
  | options hname => exact .valued (by rw [hname]; decide) .nil
  | exclude hname => exact .valued (by rw [hname]; decide) .nil
  | excludeList hname => exact .valued (by rw [hname]; decide) .nil
  | value hname =>
      refine .valued ?_ .nil
      rcases hname with hname | hname <;> rw [hname] <;> decide
  | forwarded => exact .nil

theorem Inserted.append (h : Inserted argument s s') (b : Intake) :
    Inserted argument (s.append b) (s'.append b) := by
  obtain ⟨hfront⟩ := h
  rw [Intake.append, Intake.append, List.append_assoc, List.append_assoc, List.cons_append]
  exact .intro hfront

theorem run_succ {rest : List String} (hpending : s.pending = option :: rest) :
    run t (fuel + 1) s = (s.step t).bind (run t fuel) := by
  rw [Intake.run, hpending]
  cases s.step t <;> rfl

/-- A queue goes on in the same way with one argument more. -/
theorem Inserted.run (h : Inserted argument s s') (t : FileTree) (fuel : Nat) :
    EndsInserted argument (run t fuel s) (run t fuel s') := by
  induction fuel generalizing s s' with
  | zero =>
      obtain @⟨pending, front, back, forwarded, excludes, hfront⟩ := h
      cases pending with
      | nil => exact .ok (.intro hfront)
      | cons => exact .error _
  | succ fuel ih =>
      obtain @⟨pending, front, back, forwarded, excludes, hfront⟩ := h
      cases pending with
      | nil => exact .ok (.intro hfront)
      | cons option rest =>
          rw [run_succ rfl, run_succ rfl]
          rcases step_brings t option with ⟨e, -, herror⟩ | ⟨b, -, hok⟩
          · rw [herror _ rest rfl, herror _ rest rfl]
            exact .error e
          · rw [hok _ rest rfl, hok _ rest rfl]
            exact ih (Inserted.append (.intro hfront) b)

theorem step_argument (switch : Switch) {rest : List String}
    (hpending : s.pending = switch.argument :: rest) :
    s.step t = .ok { s with pending := rest, arguments := s.arguments ++ [switch.argument] } := by
  rw [step, hpending]
  cases switch <;> rfl

/-- A switch is put behind options in front that leave none of their arguments cut off. -/
theorem run_insert (switch : Switch) {front back : List String}
    (hfront : ∀ a ∈ front, LeavesWhole a)
    (hpending : s.pending = front ++ back) (harguments : Whole s.arguments)
    (hfuel : front.length ≤ fuel) :
    EndsInserted switch.argument (run t fuel s)
      (run t (fuel + 1) { s with pending := front ++ switch.argument :: back }) := by
  induction front generalizing s back fuel with
  | nil =>
      obtain ⟨pending, arguments, forwarded, excludes⟩ := s
      obtain rfl : pending = back := hpending
      have hinserted : Inserted switch.argument ⟨pending, arguments ++ [], forwarded, excludes⟩
          ⟨pending, arguments ++ [switch.argument], forwarded, excludes⟩ := .intro harguments
      rw [List.append_nil] at hinserted
      rw [List.nil_append, run_succ rfl, step_argument switch rfl]
      exact hinserted.run t fuel
  | cons option front ih =>
      obtain ⟨fuel, rfl⟩ := Nat.exists_eq_add_of_le' (Nat.le_of_add_left_le hfuel)
      rw [run_succ hpending, run_succ rfl]
      rcases step_brings t option with ⟨e, -, herror⟩ | ⟨b, hb, hok⟩
      · rw [herror s _ hpending, herror _ _ rfl]
        exact .error e
      · rw [hok s _ hpending, hok _ _ rfl]
        have hwhole := hb.whole (hfront option List.mem_cons_self)
        have hrest := ih (s := append { s with pending := front ++ back } b)
          (fun a ha => hfront a (List.mem_cons_of_mem _ ha))
          (List.append_assoc front back b.pending) (harguments.append hwhole)
          (Nat.le_of_succ_le_succ hfuel)
        have hqueue : front ++ switch.argument :: back ++ b.pending =
            front ++ switch.argument :: (back ++ b.pending) := by
          rw [List.append_assoc, List.cons_append]
        rw [← hqueue] at hrest
        exact hrest

theorem run_eq_of_bound_le {options : List String} (hfuel : bound t options.length ≤ fuel) :
    run t fuel (ofOptions options) = run t (bound t options.length) (ofOptions options) := by
  by_cases hends : ∃ n r, Ends t n (ofOptions options) r
  · obtain ⟨n, r, hends⟩ := hends
    have hbound : n ≤ bound t options.length := hends.le_bound rfl
    rw [hends.run_eq hbound, hends.run_eq (Nat.le_trans hbound hfuel)]
  · have hendless : ∀ fuel, run t fuel (ofOptions options) = .error .endlessOptions := by
      intro fuel
      by_contra hne
      obtain ⟨n, -, hn⟩ := exists_ends_of_run hne
      exact hends ⟨n, _, hn⟩
    rw [hendless, hendless]

theorem le_bound (t : FileTree) (n : Nat) : n ≤ bound t n :=
  Nat.le_mul_of_pos_right n (Nat.pow_pos (Nat.succ_pos _))

theorem bound_lt_succ (t : FileTree) (n : Nat) : bound t n < bound t (n + 1) :=
  Nat.mul_lt_mul_of_pos_right (Nat.lt_succ_self n) (Nat.pow_pos (Nat.succ_pos _))

end Intake

namespace Command

open Intake

def map (f : ToolOptions → ToolOptions) : Command → Command
  | @help usage => @help usage
  | .run i => .run { i with tool := f i.tool }

theorem ofIntake_inserted {reader : ArgumentReader} (hreader : reader.ReadsSwitches)
    (switch : Switch) {s s' : Intake} (h : Inserted switch.argument s s') (files : List String) :
    ofIntake reader s' files = (ofIntake reader s files).map (map (switch.set true)) := by
  obtain @⟨pending, front, back, forwarded, excludes, hfront⟩ := h
  rw [ofIntake, ofIntake, hreader switch front back hfront]
  cases reader (front ++ back) with
  | error exit =>
      simp only [Except.map]
      split <;> rfl
  | ok tool =>
      simp only [Except.map, Switch.rules_set]
      split <;> rfl

/-- A command line with a switch more asks for the same with the switch on, wherever behind options
that leave their arguments whole the switch stands. -/
theorem readWith_insert {reader : ArgumentReader} (hreader : reader.ReadsSwitches) (t : FileTree)
    (switch : Switch) {front back : List String}
    (hfront : ∀ a ∈ front, isOption a = true ∧ LeavesWhole a) :
    readWith reader t (front ++ switch.argument :: back) =
      (readWith reader t (front ++ back)).map (map (switch.set true)) := by
  have hargument : isOption switch.argument = true := by cases switch <;> decide
  have htake : ∀ rest, (front ++ rest).takeWhile isOption = front ++ rest.takeWhile isOption :=
    fun rest => List.takeWhile_append_of_pos fun a ha => (hfront a ha).1
  have hdrop : ∀ rest, (front ++ rest).dropWhile isOption = rest.dropWhile isOption :=
    fun rest => List.dropWhile_append_of_pos fun a ha => (hfront a ha).1
  -- One step more is enough for the switch, and the bound for one option more allows it.
  obtain ⟨fuel, hfuel⟩ := Nat.exists_eq_add_of_lt
    (bound_lt_succ t (front ++ back.takeWhile isOption).length)
  have hlength : (front ++ switch.argument :: back.takeWhile isOption).length =
      (front ++ back.takeWhile isOption).length + 1 := by
    simp only [List.length_append, List.length_cons, Nat.add_assoc]
  have hle : front.length ≤ bound t (front ++ back.takeWhile isOption).length + fuel := by
    have hbound := le_bound t (front ++ back.takeWhile isOption).length
    rw [List.length_append] at hbound ⊢
    omega
  have hinsert : EndsInserted switch.argument
      (Intake.run t (bound t (front ++ back.takeWhile isOption).length)
        (ofOptions (front ++ back.takeWhile isOption)))
      (Intake.run t (bound t (front ++ switch.argument :: back.takeWhile isOption).length)
        (ofOptions (front ++ switch.argument :: back.takeWhile isOption))) := by
    rw [← run_eq_of_bound_le (Nat.le_add_right _ fuel), hlength, hfuel]
    exact run_insert switch (fun a ha => (hfront a ha).2) rfl .nil hle
  rw [readWith, readWith, htake, htake, hdrop, hdrop, List.takeWhile_cons_of_pos hargument,
    List.dropWhile_cons_of_pos hargument]
  revert hinsert
  generalize Intake.run t _ (ofOptions (front ++ back.takeWhile isOption)) = r
  generalize Intake.run t _ (ofOptions (front ++ switch.argument :: back.takeWhile isOption)) = r'
  intro hinsert
  cases hinsert with
  | error e => rfl
  | ok h => exact ofIntake_inserted hreader switch h _

end Command

/-! ## The reader defined here -/

namespace ToolOptions

variable (s : Switch) (o : ToolOptions)

theorem turnOn?_argument : o.turnOn? s.argument = some (s.set true o) := by
  cases s <;> rfl

theorem turnOn?_set (text : String) :
    (s.set true o).turnOn? text = (o.turnOn? text).map (s.set true) := by
  unfold turnOn?
  split <;> cases s <;> rfl

theorem give_set (option value : String) :
    (s.set true o).give option value = (o.give option value).map (s.set true) := by
  obtain ⟨_, _, _, engine, _, _, _, rules⟩ := o
  unfold give
  split
  · cases s <;> cases engine <;> rfl
  · cases s <;> cases rules <;> rfl
  all_goals cases s <;> rfl

theorem finish_set (help : Bool) :
    finish help (s.set true o) = (finish help o).map (s.set true) := by
  cases help <;> rfl

theorem read_set (help : Bool) (arguments : List String) :
    read help (s.set true o) arguments = (read help o arguments).map (s.set true) := by
  fun_induction ToolOptions.read help o arguments with
  | case1 help o => exact finish_set s o help
  | case2 help o argument rest hhelp ih =>
      rw [read.eq_def]
      simp only [hhelp]
      exact ih
  | case3 help o argument hhelp hdashes =>
      rw [read.eq_def]
      simp only [hhelp, hdashes]
      exact finish_set s o help
  | case4 help o argument hhelp hdashes next rest =>
      rw [read.eq_def]
      simp only [hhelp, hdashes]
      rfl
  | case5 help o argument rest hhelp hdashes hbare =>
      rw [read.eq_def]
      simp only [hhelp, hdashes, hbare]
      rfl
  | case6 o argument rest hhelp hdashes hdashed =>
      rw [read.eq_def]
      simp only [hhelp, hdashes, hdashed]
      rfl
  | case7 help o argument rest hhelp hdashes hdashed hnot o' hturn ih =>
      rw [read.eq_def]
      simp only [hhelp, hdashes, hdashed, hnot, turnOn?_set, hturn]
      obtain rfl := Bool.eq_false_of_not_eq_true hnot
      exact ih
  | case8 help o argument hhelp hdashes hdashed hnot hturn hvalued =>
      rw [read.eq_def]
      simp only [hhelp, hdashes, hdashed, hnot, turnOn?_set, hturn, hvalued]
      rfl
  | case9 help o argument hhelp hdashes hdashed hnot hturn hvalued value rest o' hgive ih =>
      rw [read.eq_def]
      simp only [hhelp, hdashes, hdashed, hnot, turnOn?_set, hturn, hvalued, give_set, hgive]
      obtain rfl := Bool.eq_false_of_not_eq_true hnot
      exact ih
  | case10 help o argument hhelp hdashes hdashed hnot hturn hvalued value rest e hgive =>
      rw [read.eq_def]
      simp only [hhelp, hdashes, hdashed, hnot, turnOn?_set, hturn, hvalued, give_set, hgive]
      rfl
  | case11 help o argument rest hhelp hdashes hdashed hnot hturn hvalued =>
      rw [read.eq_def]
      simp only [hhelp, hdashes, hdashed, hnot, turnOn?_set, hturn, hvalued]
      rfl

variable {name : String}

theorem exists_read_switch (hname : name ∈ switches) :
    ∃ o', o.turnOn? ("--" ++ name) = some o' ∧
      ∀ rest, read false o (("--" ++ name) :: rest) = read false o' rest := by
  have hforms : ∀ name ∈ switches, asksForHelp ("--" ++ name) = false ∧
      (("--" ++ name) == "--") = false ∧ (("--" ++ name).toList.head? != some '-') = false ∧
        (name = "dry-run" ∨ name = "quiet" ∨ name = "version") := by decide
  obtain ⟨hhelp, hdashes, hdashed, hcases⟩ := hforms name hname
  have hturn : ∃ o', o.turnOn? ("--" ++ name) = some o' := by
    rcases hcases with rfl | rfl | rfl <;> exact ⟨_, rfl⟩
  obtain ⟨o', ho'⟩ := hturn
  refine ⟨o', ho', fun rest => ?_⟩
  rw [read.eq_def]
  simp only [hhelp, hdashes, hdashed, ho']
  rfl

theorem read_valued (hname : name ∈ valued) (value : String) (rest : List String) :
    read false o (("--" ++ name) :: value :: rest) =
      (o.give ("--" ++ name) value).bind fun o' => read false o' rest := by
  have hforms : ∀ name ∈ valued, asksForHelp ("--" ++ name) = false ∧
      (("--" ++ name) == "--") = false ∧ (("--" ++ name).toList.head? != some '-') = false ∧
        isValued ("--" ++ name) = true ∧ (name = "astyle-version" ∨ name = "options" ∨
          name = "exclude" ∨ name = "exclude-list" ∨ name = "rules") := by decide
  obtain ⟨hhelp, hdashes, hdashed, hvalued, hcases⟩ := hforms name hname
  have hturn : o.turnOn? ("--" ++ name) = .none := by
    rcases hcases with rfl | rfl | rfl | rfl | rfl <;> rfl
  rw [read.eq_def]
  simp only [hhelp, hdashes, hdashed, hturn, hvalued]
  cases o.give ("--" ++ name) value <;> rfl

theorem readsSwitches : ArgumentReader.ReadsSwitches (read false none) := by
  intro s front back hfront
  generalize none = o
  induction hfront generalizing o with
  | nil =>
      have hname : s.name ∈ switches := by cases s <;> decide
      obtain ⟨o', hturn, hread⟩ := exists_read_switch o hname
      obtain rfl : s.set true o = o' := Option.some.inj ((turnOn?_argument s o).symm.trans hturn)
      exact (hread back).trans (read_set s o false back)
  | @switch name rest hname _ ih =>
      obtain ⟨o', -, hread⟩ := exists_read_switch o hname
      rw [List.cons_append, List.cons_append, hread, hread]
      exact ih o'
  | @valued name value rest hname _ ih =>
      rw [List.cons_append, List.cons_append, List.cons_append, List.cons_append,
        read_valued o hname, read_valued o hname]
      cases o.give ("--" ++ name) value with
      | error e => rfl
      | ok o' => exact ih o'

end ToolOptions

end Beautifier
