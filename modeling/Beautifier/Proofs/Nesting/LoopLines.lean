/-
The `while` of a loop and its `do`.

Behind its body a loop goes on with what was owed in front of it only if the
body is a block: a closing brace of a `do` keeps the levels for the `while` that
follows, and any other end of the body clears them.  So a loop that is not the
body of a header, to which nothing is owed, lines up anyway, and one that is
lines up if its own body is a block (`loops_line_up`).

The statements are gone through in the order of their tokens.  One that starts
where a statement may start (`Ready`) leaves the blocks as they were and clears
what is owed, unless it is a block that a `do` owns (`Run`); there is one lemma
for each form, and the theorem about all of them only puts these together.
-/
import Beautifier.Proofs.Nesting.Levels
import Beautifier.Proofs.Nesting.LoopBraces

namespace Beautifier.Nesting

/-! ## Places in the source -/

/-- The word at position `p` of the source is the token at position `d`. -/
def Stands (tokens : List Token) (p : Nat) (text : String) (d : Nat) : Prop :=
  ∃ t, tokens[d]? = some t ∧ Marked [(.word, text)] [t] ∧ Grammar.own (tokens.take d) = p

section
variable {tokens ts rest : List Token} {n p d e : Nat} {t : Token} {text : String}

theorem own_take_succ (hget : tokens[n]? = some t) (hown : t.inserted = false) :
    Grammar.own (tokens.take (n + 1)) = Grammar.own (tokens.take n) + 1 := by
  rw [List.take_add_one, hget, Option.toList_some, Grammar.own_append, Grammar.own_cons hown]
  rfl

theorem own_take_add (hdrop : tokens.drop n = ts ++ rest) :
    Grammar.own (tokens.take (n + ts.length)) = Grammar.own (tokens.take n) + Grammar.own ts := by
  rw [List.take_add, hdrop, List.take_left, Grammar.own_append]

theorem own_take_mono (h : d ≤ e) :
    Grammar.own (tokens.take d) ≤ Grammar.own (tokens.take e) :=
  (List.take_sublist_take_left h).countP_le

namespace Stands

theorem le (h : Stands tokens p text d) (h' : Stands tokens p text e) : e ≤ d := by
  obtain ⟨t, hget, hmark, hd⟩ := h
  obtain ⟨-, -, -, he⟩ := h'
  refine Nat.le_of_not_lt fun hlt => ?_
  have hmono : Grammar.own (tokens.take (d + 1)) ≤ Grammar.own (tokens.take e) :=
    own_take_mono hlt
  rw [own_take_succ hget hmark.not_inserted_head] at hmono
  omega

theorem unique (h : Stands tokens p text d) (h' : Stands tokens p text e) : d = e :=
  Nat.le_antisymm (h'.le h) (h.le h')

end Stands

end

/-! ## Loops that line up -/

/-- The word at a position is indented like this, if it starts a line. -/
def Indented (o : Options) (tokens : List Token) (n : Nat) (text : String) (indent : Indent) :
    Prop :=
  ∃ t, tokens[n]? = some t ∧ Marked [(.word, text)] [t] ∧
    ∀ i blankLines, (planAt o tokens n t).layout = .newLine i blankLines → i = indent

/-- A loop lines up unless it is the body of a header and its own body is no block. -/
def Loop.LinesUp (o : Options) (tokens : List Token) (loop : Loop) : Prop :=
  ∃ (d w : Nat) (base : Indent) (levels levels' : Nat),
    Stands tokens loop.start "do" d ∧ Stands tokens loop.stop "while" w ∧
    Indented o tokens d "do" (base.deeper levels) ∧
    Indented o tokens w "while" (base.deeper levels') ∧
    (levels = levels' ↔ loop.isBody = false ∨ loop.hasBlock = true)

/-! ## Where statements start and end -/

/-- Where a statement stands: in a list of statements, or as the body of a header. -/
inductive Place where
  | list
  | body (isDo : Bool)

namespace Place

def isBody : Place → Bool
  | list => false
  | body _ => true

def isDo : Place → Bool
  | list => false
  | body isDo => isDo

end Place

/-- A statement may start at a position.  To one in a list of statements nothing is owed. -/
structure Ready (o : Options) (tokens : List Token) (n : Nat) (braces : List OpenBrace)
    (extra : Nat) (place : Place) : Prop where
  ordinary : Ordinary braces
  list : place.isBody = false → extra = 0
  idle : ∃ start, Reaches o tokens n braces (.idle start extra place.isBody) ∧
    (place.isBody = true → Owner tokens n start place.isDo)

/-- An `if` may go on behind the `else` in front of a position. -/
structure BehindElse (o : Options) (tokens : List Token) (n : Nat) (braces : List OpenBrace) :
    Prop where
  ordinary : Ordinary braces
  begun : ∃ k extra t, n = k + 1 ∧ tokens[k]? = some t ∧ Marked [(.word, "else")] [t] ∧
    Reaches o tokens n braces (.begun k extra)

/-- The loops that have been gone through line up.  At position `n`, in front of `rest`, a statement
has ended, and `owed` levels are owed to the next one unless `else` follows. -/
structure Run (o : Options) (tokens rest : List Token) (n : Nat) (braces : List OpenBrace)
    (loops : List Loop) (owed : Nat) : Prop where
  loops : ∀ loop ∈ loops, loop.LinesUp o tokens
  ended : ∃ start extra, Reaches o tokens n braces (.idle start extra false) ∧
    (startsWord "else" rest = false → extra = owed)

/-- Laid out from where it may start, the statement runs. -/
def Tree.Runs (o : Options) (tokens : List Token) (tree : Tree) : Prop :=
  ∀ (n : Nat) (ts rest : List Token) (place : Place) (braces : List OpenBrace) (extra : Nat),
    tokens.drop n = ts ++ rest → Laid tree ts →
    (place.isDo = true → startsWord "while" rest = true) →
    (Ready o tokens n braces extra place ∨ tree.isIf = true ∧ BehindElse o tokens n braces) →
      Run o tokens rest (n + ts.length) braces
        (tree.loops (Grammar.own (tokens.take n)) place.isBody)
        (if tree.isBlock && place.isDo then extra else 0)

/-- Laid out from where the first of them may start, the statements run. -/
def Trees.Runs (o : Options) (tokens : List Token) (trees : Trees) : Prop :=
  ∀ (n : Nat) (ts rest : List Token) (braces : List OpenBrace),
    tokens.drop n = ts ++ rest → LaidAll trees ts → startsWord "else" rest = false →
    Ready o tokens n braces 0 .list →
      Run o tokens rest (n + ts.length) braces (trees.loops (Grammar.own (tokens.take n))) 0

/-! ## Headers -/

section
variable {o : Options} {tokens ts us rest : List Token} {n extra : Nat} {place : Place}
  {braces : List OpenBrace} {loops : List Loop} {t : Token}

/-- Only an `if` goes on behind an `else`. -/
theorem ready_of_not_isIf {tree : Tree} (hif : tree.isIf = false)
    (h : Ready o tokens n braces extra place ∨ tree.isIf = true ∧ BehindElse o tokens n braces) :
    Ready o tokens n braces extra place :=
  h.resolve_right fun h => Bool.false_ne_true (hif.symm.trans h.1)

theorem owner_of_marked {text : String} {isDo : Bool} (hget : tokens[n]? = some t)
    (hmark : Marked [(.word, text)] [t]) (hdo : (text == "do") = isDo) (hswitch : text ≠ "switch")
    {m : Nat} (hlt : n < m) : Owner tokens m n isDo := by
  refine ⟨hlt, t, hget, ?_, ?_⟩
  · rw [Token.isWord, hmark.kind, hmark.text, ← hdo]
    rfl
  · rw [Token.isWord, hmark.kind, hmark.text, beq_eq_false_iff_ne.mpr hswitch, Bool.and_false]

theorem Ready.header (h : Ready o tokens n braces extra place)
    (hcode : ∀ t ∈ tokens, t.isTrivia = false) {keyword : String}
    (hkeyword : keyword = "if" ∨ keyword = "while") {w : Word} {front : List Token}
    (hdrop : tokens.drop n = front ++ rest) (hfront : Marked (conditionMarks keyword w) front) :
    ∃ extra', Ready o tokens (n + 4) braces extra' (.body false) := by
  obtain ⟨start, hidle, -⟩ := h.idle
  have hbody := hidle.condition hcode hkeyword hdrop hfront (fun _ => mayBeHeader_idle) rfl
  obtain ⟨header, _, rfl, hheader, -⟩ := hfront.exists_cons
  refine ⟨_, h.ordinary, fun hlist => absurd hlist.symm Bool.false_ne_true, n, hbody, fun _ => ?_⟩
  exact owner_of_marked (getElem?_of_drop hdrop) hheader
    (by rcases hkeyword with rfl | rfl <;> rfl) (by rcases hkeyword with rfl | rfl <;> decide)
    (Nat.lt_add_of_pos_right (by decide))

theorem BehindElse.header (h : BehindElse o tokens n braces)
    (hcode : ∀ t ∈ tokens, t.isTrivia = false) {w : Word} {front : List Token}
    (hdrop : tokens.drop n = front ++ rest) (hfront : Marked (conditionMarks "if" w) front) :
    ∃ extra', Ready o tokens (n + 4) braces extra' (.body false) := by
  obtain ⟨k, extra, u, rfl, hget, hmark, hbegun⟩ := h.begun
  have hprev : ∀ t, mayBeHeader (cursorAt tokens (k + 1) t) (.begun k extra) = true := fun t => by
    rw [mayBeHeader, prevCode_succ_of_code hget (hcode u (List.mem_of_getElem? hget)),
      Option.any_some, hmark.isWord, Bool.or_true]
  have hbody := hbegun.condition hcode (.inl rfl) hdrop hfront hprev rfl
  refine ⟨extra, h.ordinary, fun hlist => absurd hlist.symm Bool.false_ne_true, k, hbody,
    fun _ => ?_⟩
  exact owner_of_marked hget hmark rfl (by decide) (by omega)

theorem Reaches.ready_branch {start : Nat} {branch : Tree}
    (h : Reaches o tokens n braces (.idle start extra false)) (hbraces : Ordinary braces)
    (hcode : ∀ t ∈ tokens, t.isTrivia = false) (hdrop : tokens.drop n = t :: rest)
    (hmark : Marked [(.word, "else")] [t]) (hif : startsWord "if" rest = branch.isIf) :
    Ready o tokens (n + 1) braces extra (.body false) ∨
      branch.isIf = true ∧ BehindElse o tokens (n + 1) braces := by
  have hget := getElem?_of_drop hdrop
  have hbehind := h.branch hcode hdrop hmark
  rw [hif] at hbehind
  cases hbranch : branch.isIf with
  | true =>
      rw [hbranch, if_pos rfl] at hbehind
      exact .inr ⟨rfl, hbraces, n, extra, t, rfl, hget, hmark, hbehind⟩
  | false =>
      rw [hbranch, if_neg Bool.false_ne_true] at hbehind
      refine .inl ⟨hbraces, fun hlist => absurd hlist.symm Bool.false_ne_true, n, hbehind,
        fun _ => ?_⟩
      exact owner_of_marked hget hmark rfl (by decide) (Nat.lt_succ_self n)

/-! ## One lemma for each form -/

theorem Ready.run_braces (h : Ready o tokens n braces extra place)
    (hplain : ∀ t ∈ tokens, Mark.Plain (markOf t)) {opened closed : Token}
    (hdrop : tokens.drop n = opened :: (ts ++ closed :: rest)) (hopen : opened.is "\x7b" = true)
    (hclose : closed.is "\x7d" = true)
    (hwhile : place.isDo = true → startsWord "while" rest = true)
    (hinside : ∀ b, Ready o tokens (n + 1) (b :: braces) 0 .list →
      Run o tokens (closed :: rest) (n + 1 + ts.length) (b :: braces) loops 0) :
    Run o tokens rest (n + 1 + ts.length + 1) braces loops (if place.isDo then extra else 0) := by
  obtain ⟨start, hidle, howner⟩ := h.idle
  obtain ⟨b, hkind, hexpression, hisDo, houter, hopened⟩ :=
    hidle.opening h.ordinary hdrop hopen howner
  have hready : Ready o tokens (n + 1) (b :: braces) 0 .list :=
    ⟨List.forall_mem_cons.mpr ⟨hkind, h.ordinary⟩, fun _ => rfl, 0, hopened,
      fun hbody => absurd hbody Bool.false_ne_true⟩
  obtain ⟨hloops, _, _, hend, -⟩ := hinside b hready
  have hdrop' : tokens.drop (n + 1 + ts.length) = closed :: rest :=
    BraceInsertion.drop_add (drop_succ_of_drop hdrop) rfl
  obtain ⟨extra', hclosed, hextra⟩ := hend.closing hplain hdrop' hclose hexpression houter
  refine ⟨hloops, start, extra', hclosed, fun helse => ?_⟩
  rw [hextra helse, hisDo]
  cases place with
  | list => rfl
  | body isDo =>
      cases isDo with
      | false => rfl
      | true => rw [hwhile rfl]; rfl

theorem runs_simple (hplain : ∀ t ∈ tokens, Mark.Plain (markOf t)) (w : Word) :
    (Tree.simple w).Runs o tokens := by
  intro n ts rest place braces extra hdrop hlaid _ hentry
  have hready := ready_of_not_isIf rfl hentry
  obtain ⟨start, hidle, -⟩ := hready.idle
  cases hlaid with
  | simple hts =>
      obtain ⟨t, _, rfl, ht, hts⟩ := hts.exists_cons
      obtain ⟨u, rfl, hu⟩ := hts.exists_single
      obtain ⟨extra', hended, hextra⟩ := (hidle.name hdrop ht).semicolon
        (not_isTrivia_of_plain hplain) hready.ordinary (drop_succ_of_drop hdrop) hu rfl
      exact ⟨List.forall_mem_nil _, _, extra', hended, hextra⟩

theorem Tree.Runs.body {body : Tree} (h : body.Runs o tokens)
    (hplain : ∀ t ∈ tokens, Mark.Plain (markOf t)) {added : Bool}
    (hdrop : tokens.drop n = wrapped added ts ++ rest)
    (hadded : added = true → body.isSimple = true) (hlaid : Laid body ts)
    (hentry : Ready o tokens n braces extra (.body false) ∨
      body.isIf = true ∧ BehindElse o tokens n braces) :
    Run o tokens rest (n + (wrapped added ts).length) braces
      (body.loops (Grammar.own (tokens.take n)) true) 0 := by
  cases added with
  | false =>
      have hrun := h n ts rest (.body false) braces extra hdrop hlaid
        (fun hdo => absurd hdo Bool.false_ne_true) hentry
      rwa [show (Place.body false).isDo = false from rfl, Bool.and_false,
        if_neg Bool.false_ne_true] at hrun
  | true =>
      cases body with
      | simple w =>
          have hready := ready_of_not_isIf rfl hentry
          have hdrop' : tokens.drop n = BraceInsertion.openingBrace
              :: (ts ++ BraceInsertion.closingBrace :: rest) := by
            rw [hdrop, wrapped, if_pos rfl, List.cons_append, List.append_assoc]
            rfl
          have hlength : n + (wrapped true ts).length = n + 1 + ts.length + 1 := by
            rw [wrapped, if_pos rfl, List.length_cons, List.length_append, List.length_singleton]
            omega
          rw [hlength]
          exact hready.run_braces hplain hdrop' rfl rfl (fun hdo => absurd hdo Bool.false_ne_true)
            fun b hinside => h (n + 1) ts _ .list (b :: braces) 0 (drop_succ_of_drop hdrop') hlaid
              (fun hdo => absurd hdo Bool.false_ne_true) (.inl hinside)
      | _ => exact absurd (hadded rfl) Bool.false_ne_true

theorem Tree.Runs.behind_header {body : Tree} (h : body.Runs o tokens)
    (hplain : ∀ t ∈ tokens, Mark.Plain (markOf t)) {keyword : String} {w : Word}
    {front : List Token} {added : Bool}
    (hdrop : tokens.drop n = front ++ (wrapped added ts ++ rest))
    (hfront : Marked (conditionMarks keyword w) front)
    (hadded : added = true → body.isSimple = true) (hlaid : Laid body ts)
    (hready : ∃ extra, Ready o tokens (n + 4) braces extra (.body false)) :
    Run o tokens rest (n + (front ++ wrapped added ts).length) braces
      (body.loops (Grammar.own (tokens.take n) + 4) true) 0 := by
  obtain ⟨extra, hready⟩ := hready
  have hlength : front.length = 4 := hfront.length_eq
  have hinside : tokens.drop (n + 4) = wrapped added ts ++ rest :=
    BraceInsertion.drop_add hdrop (by rw [hlength])
  have hrun := h.body hplain hinside hadded hlaid (.inl hready)
  have hplace := own_take_add hdrop
  rw [hlength, hfront.own_eq] at hplace
  rw [hplace] at hrun
  rw [List.length_append, hlength, ← Nat.add_assoc]
  exact hrun

theorem runs_ifThen (hplain : ∀ t ∈ tokens, Mark.Plain (markOf t)) (w : Word) {body : Tree}
    (hbody : body.Runs o tokens) : (Tree.ifThen w body).Runs o tokens := by
  intro n ts rest place braces extra hdrop hlaid _ hentry
  have hcode := not_isTrivia_of_plain hplain
  cases hlaid with
  | ifThen hfront hadded hlaid =>
      rw [List.append_assoc] at hdrop
      exact hbody.behind_header hplain hdrop hfront hadded hlaid
        (hentry.elim (·.header hcode (.inl rfl) hdrop hfront) (·.2.header hcode hdrop hfront))

theorem runs_whileDo (hplain : ∀ t ∈ tokens, Mark.Plain (markOf t)) (w : Word) {body : Tree}
    (hbody : body.Runs o tokens) : (Tree.whileDo w body).Runs o tokens := by
  intro n ts rest place braces extra hdrop hlaid _ hentry
  have hcode := not_isTrivia_of_plain hplain
  have hready := ready_of_not_isIf rfl hentry
  cases hlaid with
  | whileDo hfront hadded hlaid =>
      rw [List.append_assoc] at hdrop
      exact hbody.behind_header hplain hdrop hfront hadded hlaid
        (hready.header hcode (.inr rfl) hdrop hfront)

/-- What stands behind `else` starts with `if` if the branch is one. -/
theorem startsWord_branch {branch : Tree} {added : Bool}
    (hadded : added = true → branch.isSimple = true) (hlaid : Laid branch ts) :
    startsWord "if" (wrapped added ts ++ rest) = branch.isIf := by
  cases added with
  | true =>
      cases branch with
      | simple w => rfl
      | _ => exact absurd (hadded rfl) Bool.false_ne_true
  | false =>
      obtain ⟨t, us, rfl, hfirst⟩ := hlaid.exists_first
      exact (Tree.isWord_first hfirst).2

theorem runs_ifElse (hplain : ∀ t ∈ tokens, Mark.Plain (markOf t)) (w : Word)
    {body branch : Tree} (hbody : body.Runs o tokens) (hbranch : branch.Runs o tokens) :
    (Tree.ifElse w body branch).Runs o tokens := by
  intro n ts rest place braces extra hdrop hlaid _ hentry
  have hcode := not_isTrivia_of_plain hplain
  have hordinary : Ordinary braces := hentry.elim (·.ordinary) (·.2.ordinary)
  cases hlaid with
  | @ifElse _ _ _ front us vs keyword added added' hfront hadded hlaid hkeyword hadded' hlaid' =>
      rw [List.append_assoc, List.append_assoc, List.cons_append] at hdrop
      obtain ⟨hloops, start, owed, hended, -⟩ :=
        hbody.behind_header hplain hdrop hfront hadded hlaid
          (hentry.elim (·.header hcode (.inl rfl) hdrop hfront) (·.2.header hcode hdrop hfront))
      rw [← List.append_assoc] at hdrop
      have hdrop' : tokens.drop (n + (front ++ wrapped added us).length)
          = keyword :: (wrapped added' vs ++ rest) := BraceInsertion.drop_add hdrop rfl
      have hentry' := hended.ready_branch hordinary hcode hdrop' hkeyword
        (startsWord_branch hadded' hlaid')
      obtain ⟨hloops', hended'⟩ :=
        hbranch.body hplain (drop_succ_of_drop hdrop') hadded' hlaid' hentry'
      have hplace : Grammar.own (tokens.take (n + (front ++ wrapped added us).length + 1))
          = Grammar.own (tokens.take n) + 4 + body.marks.length + 1 := by
        rw [own_take_succ (getElem?_of_drop hdrop') hkeyword.not_inserted_head,
          own_take_add hdrop, Grammar.own_append, own_wrapped, hfront.own_eq, hlaid.own_eq,
          ← Nat.add_assoc]
        rfl
      have hend : n + (front ++ (wrapped added us ++ keyword :: wrapped added' vs)).length
          = n + (front ++ wrapped added us).length + 1 + (wrapped added' vs).length := by
        simp only [List.length_append, List.length_cons]
        omega
      rw [hplace] at hloops'
      rw [hend]
      exact ⟨List.forall_mem_append.mpr ⟨hloops, hloops'⟩, hended'⟩

theorem Reaches.closing_while {start : Nat} {w : Word} {closing : List Token}
    (h : Reaches o tokens n braces (.idle start extra false))
    (hcode : ∀ t ∈ tokens, t.isTrivia = false) (hbraces : Ordinary braces)
    (hdrop : tokens.drop n = closing ++ rest)
    (hclosing : Marked (conditionMarks "while" w ++ [(.punctuation, ";")]) closing) :
    ∃ owed, Reaches o tokens (n + closing.length) braces (.idle n owed false) ∧
      (startsWord "else" rest = false → owed = 0) := by
  obtain ⟨front, _, rfl, hfront, hsemicolon⟩ := hclosing.exists_append
  obtain ⟨semicolon, rfl, hsemicolon⟩ := hsemicolon.exists_single
  rw [List.append_assoc] at hdrop
  have hlength : front.length = 4 := hfront.length_eq
  have hbehind := h.condition hcode (.inr rfl) hdrop hfront (fun _ => mayBeHeader_idle) rfl
  have hdrop' : tokens.drop (n + 4) = semicolon :: rest :=
    BraceInsertion.drop_add hdrop (by rw [hlength])
  rw [List.length_append, hlength]
  exact hbehind.semicolon hcode hbraces hdrop' hsemicolon rfl

theorem Reaches.indented {start : Nat} {pending : Bool} {text : String}
    (h : Reaches o tokens n braces (.idle start extra pending)) (hbraces : Ordinary braces)
    (hget : tokens[n]? = some t) (hmark : Marked [(.word, text)] [t]) :
    Indented o tokens n text ((baseIndent braces).deeper (extra + pending.toNat)) :=
  ⟨t, hget, hmark, fun _ _ hlayout => h.stands hbraces hmark.kind hlayout⟩

/-- What is owed to a `do` is owed to its `while` again, or nothing is. -/
theorem owed_iff {isBody hasBlock : Bool} (h : isBody = false → extra = 0) :
    (extra + isBody.toNat = (if hasBlock then extra + isBody.toNat else 0) + false.toNat ↔
      isBody = false ∨ hasBlock = true) := by
  cases isBody with
  | false => simp [h rfl]
  | true => cases hasBlock <;> simp

/-- Behind the body of a loop what was owed in front of it is owed again if the body is a block,
and nothing if it is not. -/
theorem Tree.Runs.behind_do {body : Tree} (h : body.Runs o tokens) {w : Word} {keyword : Token}
    {closing : List Token} (hready : Ready o tokens n braces extra place)
    (hdrop : tokens.drop n = keyword :: (ts ++ (closing ++ rest)))
    (hkeyword : Marked [(.word, "do")] [keyword]) (hlaid : Laid body ts)
    (hclosing : Marked (conditionMarks "while" w ++ [(.punctuation, ";")]) closing) :
    ∃ start, Reaches o tokens (n + ts.length + 1) braces
        (.idle start (if body.isBlock then extra + place.isBody.toNat else 0) false) ∧
      ∀ loop ∈ body.loops (Grammar.own (tokens.take n) + 1) true, loop.LinesUp o tokens := by
  obtain ⟨start, hidle, -⟩ := hready.idle
  have hget := getElem?_of_drop hdrop
  have hready' : Ready o tokens (n + 1) braces (extra + place.isBody.toNat) (.body true) :=
    ⟨hready.ordinary, fun hlist => absurd hlist.symm Bool.false_ne_true, n,
      hidle.loop hdrop hkeyword,
      fun _ => owner_of_marked hget hkeyword rfl (by decide) (Nat.lt_succ_self n)⟩
  obtain ⟨first, others, hfirst, hwhile, -⟩ := hclosing.exists_cons
  have hnext : ∀ text, startsWord text (closing ++ rest) = first.isWord text := fun text => by
    rw [hfirst]
    rfl
  have helse : startsWord "else" (closing ++ rest) = false := by
    rw [hnext, Token.isWord, hwhile.text]
    exact Bool.and_false _
  obtain ⟨hloops, start', owed, hended, howed⟩ :=
    h (n + 1) ts (closing ++ rest) (.body true) braces _ (drop_succ_of_drop hdrop) hlaid
      (fun _ => (hnext _).trans hwhile.isWord) (.inl hready')
  obtain rfl : owed = if body.isBlock then extra + place.isBody.toNat else 0 := by
    rw [howed helse, show (Place.body true).isDo = true from rfl, Bool.and_true]
  rw [Nat.add_right_comm] at hended
  rw [own_take_succ hget hkeyword.not_inserted_head] at hloops
  exact ⟨start', hended, hloops⟩

theorem runs_doWhile (hplain : ∀ t ∈ tokens, Mark.Plain (markOf t)) {body : Tree} (w : Word)
    (hbody : body.Runs o tokens) : (Tree.doWhile body w).Runs o tokens := by
  intro n ts rest place braces extra hdrop hlaid _ hentry
  have hready := ready_of_not_isIf rfl hentry
  obtain ⟨start, hidle, -⟩ := hready.idle
  cases hlaid with
  | @doWhile _ _ keyword us closing hkeyword hlaid hclosing =>
      rw [List.cons_append, List.append_assoc] at hdrop
      have hget := getElem?_of_drop hdrop
      obtain ⟨start', hended, hloops⟩ := hbody.behind_do hready hdrop hkeyword hlaid hclosing
      have hfront : tokens.drop n = (keyword :: us) ++ (closing ++ rest) := hdrop
      have hdrop' : tokens.drop (n + us.length + 1) = closing ++ rest :=
        BraceInsertion.drop_add hfront rfl
      obtain ⟨owed, hclosed, howed⟩ :=
        hended.closing_while (not_isTrivia_of_plain hplain) hready.ordinary hdrop' hclosing
      have hend : n + (keyword :: (us ++ closing)).length = n + us.length + 1 + closing.length := by
        simp only [List.length_append, List.length_cons]
        omega
      rw [hend]
      refine ⟨List.forall_mem_cons.mpr ⟨?_, hloops⟩, _, owed, hclosed, howed⟩
      have hplace : Grammar.own (tokens.take (n + us.length + 1))
          = Grammar.own (tokens.take n) + 1 + body.marks.length := by
        have hinside := own_take_add hfront
        rw [Grammar.own_cons hkeyword.not_inserted_head, hlaid.own_eq] at hinside
        exact hinside.trans (by omega)
      obtain ⟨first, others, rfl, hwhile, -⟩ := hclosing.exists_cons
      have hget' := getElem?_of_drop hdrop'
      exact ⟨n, n + us.length + 1, baseIndent braces, _, _,
        ⟨keyword, hget, hkeyword, rfl⟩, ⟨first, hget', hwhile, hplace⟩,
        hidle.indented hready.ordinary hget hkeyword,
        hended.indented hready.ordinary hget' hwhile, owed_iff hready.list⟩

theorem runs_block (hplain : ∀ t ∈ tokens, Mark.Plain (markOf t)) {body : Trees}
    (hbody : body.Runs o tokens) : (Tree.block body).Runs o tokens := by
  intro n ts rest place braces extra hdrop hlaid hwhile hentry
  have hready := ready_of_not_isIf rfl hentry
  cases hlaid with
  | @block _ opened closed us hopened hlaid hclosed =>
      rw [List.cons_append, List.append_assoc, List.singleton_append] at hdrop
      have hend : n + (opened :: (us ++ [closed])).length = n + 1 + us.length + 1 := by
        simp only [List.length_append, List.length_cons, List.length_nil]
        omega
      have hinside : startsWord "else" (closed :: rest) = false := by
        rw [startsWord, List.head?_cons, Option.any_some, Token.isWord, hclosed.kind]
        rfl
      have hplace := own_take_succ (getElem?_of_drop hdrop) hopened.not_inserted_head
      rw [hend]
      refine hready.run_braces hplain hdrop hopened.is hclosed.is hwhile fun b hb => ?_
      have hrun := hbody (n + 1) us (closed :: rest) (b :: braces) (drop_succ_of_drop hdrop) hlaid
        hinside hb
      rwa [hplace] at hrun

theorem runs_nil : Trees.nil.Runs o tokens := by
  intro n ts rest braces hdrop hlaid _ hready
  cases hlaid
  obtain ⟨start, hidle, -⟩ := hready.idle
  exact ⟨List.forall_mem_nil _, start, 0, hidle, fun _ => rfl⟩

theorem runs_cons {first : Tree} {others : Trees} (hfirst : first.Runs o tokens)
    (hothers : others.Runs o tokens) : (Trees.cons first others).Runs o tokens := by
  intro n ts rest braces hdrop hlaid helse hready
  cases hlaid with
  | @cons _ _ us vs hlaid hlaid' =>
      rw [List.append_assoc] at hdrop
      -- what comes next is the next statement or what stands behind them all
      have hnext : startsWord "else" (vs ++ rest) = false := by
        cases hlaid' with
        | nil => exact helse
        | cons hnext =>
            obtain ⟨t, ts, rfl, hmark⟩ := hnext.exists_first
            exact (Tree.isWord_first hmark).1
      obtain ⟨hloops, start, owed, hended, howed⟩ := hfirst n us _ .list braces 0 hdrop hlaid
        (fun hdo => absurd hdo Bool.false_ne_true) (.inl hready)
      obtain rfl : owed = 0 := (howed hnext).trans (ite_self 0)
      have hready' : Ready o tokens (n + us.length) braces 0 .list :=
        ⟨hready.ordinary, fun _ => rfl, start, hended, fun hbody => absurd hbody Bool.false_ne_true⟩
      obtain ⟨hloops', hended'⟩ := hothers (n + us.length) vs rest braces
        (BraceInsertion.drop_add hdrop rfl) hlaid' helse hready'
      rw [own_take_add hdrop, hlaid.own_eq] at hloops'
      rw [List.length_append, ← Nat.add_assoc]
      exact ⟨List.forall_mem_append.mpr ⟨hloops, hloops'⟩, hended'⟩

/-! ## All statements -/

mutual

theorem Tree.runs (hplain : ∀ t ∈ tokens, Mark.Plain (markOf t)) :
    ∀ tree : Tree, tree.Runs o tokens
  | .simple w => runs_simple hplain w
  | .ifThen w body => runs_ifThen hplain w (body.runs hplain)
  | .ifElse w body branch => runs_ifElse hplain w (body.runs hplain) (branch.runs hplain)
  | .whileDo w body => runs_whileDo hplain w (body.runs hplain)
  | .doWhile body w => runs_doWhile hplain w (body.runs hplain)
  | .block body => runs_block hplain (body.runs hplain)

theorem Trees.runs (hplain : ∀ t ∈ tokens, Mark.Plain (markOf t)) :
    ∀ trees : Trees, trees.Runs o tokens
  | .nil => runs_nil
  | .cons first others => runs_cons (first.runs hplain) (others.runs hplain)

end

end

/-! ## In the output -/

theorem Indent.chars_deeper_inj {kind : IndentKind} {width : Nat} (hwidth : 0 < width)
    (base : Indent) {levels levels' : Nat} :
    (base.deeper levels).chars kind width = (base.deeper levels').chars kind width ↔
      levels = levels' := by
  refine ⟨fun h => ?_, congrArg fun levels => (base.deeper levels).chars kind width⟩
  have hlength := congrArg List.length h
  have hcolumns : ∀ levels, (base.levels + levels) * width + base.spaces
      = base.spaces + width * (base.levels + levels) := fun levels => by
    rw [Nat.mul_comm, Nat.add_comm]
  cases kind with
  | spaces =>
      have hmul : (base.levels + levels) * width = (base.levels + levels') * width := by
        simpa [Indent.chars, Indent.columns, Indent.deeper] using hlength
      have := Nat.eq_of_mul_eq_mul_right hwidth hmul
      omega
  | tab =>
      simp only [Indent.chars, Indent.deeper, List.length_append, List.length_replicate] at hlength
      omega
  | forceTab =>
      simp only [Indent.chars, Indent.deeper, Indent.columns, List.length_append,
        List.length_replicate, hcolumns, Nat.add_mul_div_left _ _ hwidth,
        Nat.add_mul_mod_self_left] at hlength
      omega

/-- The tokens of statements are laid out, in added braces or not. -/
theorem laidAll_tokensToLayOut {trees : Trees} (o : Options) {stream : TokenStream}
    (h : Marked trees.marks stream.tokens) : LaidAll trees (tokensToLayOut o stream) := by
  rw [tokensToLayOut]
  split
  · exact laidAll_insertBraces h
  · exact trees.laid h

/-- All loops of a source line up, but for those that are bodies of headers and whose own bodies are
no blocks. -/
theorem linesUp_of_mem_loops {trees : Trees} (o : Options) {stream : TokenStream}
    (h : Marked trees.marks stream.tokens) :
    ∀ loop ∈ trees.loops 0, loop.LinesUp o (tokensToLayOut o stream) := by
  have hplain : ∀ t ∈ tokensToLayOut o stream, Mark.Plain (markOf t) :=
    forall_mem_tokensToLayOut o
      (fun t ht => trees.plain (markOf t) (h.map_eq ▸ List.mem_map_of_mem ht))
      (@plain_punctuation "\x7b" (by simp)) (@plain_punctuation "\x7d" (by simp))
  have hready : Ready o (tokensToLayOut o stream) 0 [] 0 .list :=
    ⟨List.forall_mem_nil _, fun _ => rfl, 0, ⟨by rw [stage_zero]; rfl, by rw [stage_zero]; rfl⟩,
      fun hbody => absurd hbody Bool.false_ne_true⟩
  exact (trees.runs hplain 0 _ [] [] (List.append_nil _).symm (laidAll_tokensToLayOut o h) rfl
    hready).loops

theorem Indented.line {o : Options} {source text : String} {n a : Nat} {indent : Indent} {c : Char}
    {behind : List Char} :
    let tokens := tokensToLayOut o (tokenize o.language o.indentWidth source)
    Indented o tokens n text indent → startedLine? o tokens n = some a →
      (linesOf (glyphs text.toList)).1 = c :: behind → isBlank c = false →
        ∃ more, (outputLines o source)[a]?
          = some (indent.chars o.indentKind o.indentWidth ++ c :: more) := by
  intro tokens ⟨t, hget, hmark, hindent⟩ ha hfirst hc
  have hlines : t.lines.1 = c :: behind := by rw [Token.lines, hmark.text, hfirst]
  obtain ⟨i, blankLines, more, hlayout, hline⟩ := line_of_startedLine? hget ha hlines hc
  obtain rfl := hindent i blankLines hlayout
  exact ⟨more, hline⟩

/-- The `while` of a loop lines up with its `do` unless the loop is the body of a header and its own
body is no block. -/
theorem loops_line_up {text : String} {o : Options} (ho : parseOptions text = .ok o)
    (source : String) {trees : Trees}
    (hsource : Marked trees.marks (tokenize o.language o.indentWidth source).tokens) :
    let tokens := tokensToLayOut o (tokenize o.language o.indentWidth source)
    ∀ loop ∈ trees.loops 0,
      (∃ d w, Stands tokens loop.start "do" d ∧ Stands tokens loop.stop "while" w) ∧
      ∀ d w a b, Stands tokens loop.start "do" d → Stands tokens loop.stop "while" w →
        startedLine? o tokens d = some a → startedLine? o tokens w = some b →
          ∃ blanks blanks' x y, (∀ c ∈ blanks ++ blanks', isBlank c = true) ∧
            (outputLines o source)[a]? = some (blanks ++ 'd' :: x) ∧
            (outputLines o source)[b]? = some (blanks' ++ 'w' :: y) ∧
            (blanks = blanks' ↔ loop.isBody = false ∨ loop.hasBlock = true) := by
  intro tokens loop hloop
  have hwidth : 0 < o.indentWidth := Nat.lt_of_lt_of_le (by decide) (indentWidth_parseOptions ho).1
  obtain ⟨d, w, base, levels, levels', hd, hw, hdo, hwhile, hlevels⟩ :=
    linesUp_of_mem_loops o hsource loop hloop
  refine ⟨⟨d, w, hd, hw⟩, fun d' w' a b hd' hw' ha hb => ?_⟩
  obtain rfl := hd.unique hd'
  obtain rfl := hw.unique hw'
  have hfirst : (linesOf (glyphs "do".toList)).1 = ['d', 'o'] := by decide
  have hfirst' : (linesOf (glyphs "while".toList)).1 = ['w', 'h', 'i', 'l', 'e'] := by decide
  obtain ⟨x, hx⟩ := hdo.line ha hfirst (by decide)
  obtain ⟨y, hy⟩ := hwhile.line hb hfirst' (by decide)
  refine ⟨_, _, x, y, List.forall_mem_append.mpr ⟨isBlank_of_mem_indent, isBlank_of_mem_indent⟩,
    hx, hy, ?_⟩
  rw [Indent.chars_deeper_inj hwidth, hlevels]

/-- A loop under a header, whose own body is a block. -/
theorem loops_line_up_block :
    let a : Word := ⟨'a', [], rfl, by simp, rfl⟩
    let b : Word := ⟨'b', [], rfl, by simp, rfl⟩
    let x : Word := ⟨'x', [], rfl, by simp, rfl⟩
    let trees : Trees := .cons (.whileDo a (.doWhile (.block (.cons (.simple x) .nil)) b)) .nil
    let source := "while (a)\ndo\n\x7b\nx;\n\x7d\nwhile (b);\n"
    let tokens := tokensToLayOut .default (tokenize .c 4 source)
    parseOptions "" = .ok .default ∧ Marked trees.marks (tokenize .c 4 source).tokens ∧
      ⟨4, 9, true, true⟩ ∈ trees.loops 0 ∧ Stands tokens 4 "do" 4 ∧
      Stands tokens 9 "while" 9 ∧
      startedLine? .default tokens 4 = some 1 ∧ startedLine? .default tokens 9 = some 5 ∧
      ∃ blanks x y, (outputLines .default source)[1]? = some (blanks ++ 'd' :: x) ∧
        (outputLines .default source)[5]? = some (blanks ++ 'w' :: y) := by
  intro a b x trees source tokens
  have ho : parseOptions "" = .ok .default := by decide +kernel
  have hread : (tokenize .c 4 source).tokens
      = [⟨.word, "while", 0, "", 0, false⟩, ⟨.punctuation, "(", 0, " ", 6, false⟩,
          ⟨.word, "a", 0, "", 7, false⟩, ⟨.punctuation, ")", 0, "", 8, false⟩,
          ⟨.word, "do", 1, "", 0, false⟩, ⟨.punctuation, "\x7b", 1, "", 0, false⟩,
          ⟨.word, "x", 1, "", 0, false⟩, ⟨.punctuation, ";", 0, "", 1, false⟩,
          ⟨.punctuation, "\x7d", 1, "", 0, false⟩, ⟨.word, "while", 1, "", 0, false⟩,
          ⟨.punctuation, "(", 0, " ", 6, false⟩, ⟨.word, "b", 0, "", 7, false⟩,
          ⟨.punctuation, ")", 0, "", 8, false⟩, ⟨.punctuation, ";", 0, "", 9, false⟩] := by
    show (tokenize .c 4 "while (a)\ndo\n\x7b\nx;\n\x7d\nwhile (b);\n").tokens = _
    decide +kernel
  have htokens : tokens = _ := hread
  have hmarked : Marked trees.marks (tokenize .c 4 source).tokens := by
    rw [hread]
    exact ⟨by decide, by decide⟩
  have hloop : ⟨4, 9, true, true⟩ ∈ trees.loops 0 := List.mem_singleton.mpr rfl
  have hdo : Stands tokens 4 "do" 4 := by
    rw [htokens]
    exact ⟨_, rfl, ⟨rfl, by decide⟩, rfl⟩
  have hwhile : Stands tokens 9 "while" 9 := by
    rw [htokens]
    exact ⟨_, rfl, ⟨rfl, by decide⟩, rfl⟩
  have hstarts : startedLine? .default tokens 4 = some 1 ∧
      startedLine? .default tokens 9 = some 5 := by
    rw [htokens]
    decide +kernel
  refine ⟨ho, hmarked, hloop, hdo, hwhile, hstarts.1, hstarts.2, ?_⟩
  obtain ⟨blanks, blanks', x, y, -, hx, hy, haligned⟩ := (loops_line_up ho source hmarked
    ⟨4, 9, true, true⟩ hloop).2 4 9 1 5 hdo hwhile hstarts.1 hstarts.2
  obtain rfl := haligned.mpr (.inr rfl)
  exact ⟨blanks, x, y, hx, hy⟩

/-- The `while` of a loop under a header does not line up with its `do` if the body of the loop is
no block. -/
theorem not_lined_up_under_header :
    let a : Word := ⟨'a', [], rfl, by simp, rfl⟩
    let b : Word := ⟨'b', [], rfl, by simp, rfl⟩
    let x : Word := ⟨'x', [], rfl, by simp, rfl⟩
    let trees : Trees := .cons (.ifThen a (.doWhile (.simple x) b)) .nil
    let source := "if (a)\ndo\nx;\nwhile (b);\n"
    let tokens := tokensToLayOut .default (tokenize .c 4 source)
    parseOptions "" = .ok .default ∧ Marked trees.marks (tokenize .c 4 source).tokens ∧
      ⟨4, 7, true, false⟩ ∈ trees.loops 0 ∧ Stands tokens 4 "do" 4 ∧
      Stands tokens 7 "while" 7 ∧
      startedLine? .default tokens 4 = some 1 ∧ startedLine? .default tokens 7 = some 3 ∧
      format .default source = "if (a)\n    do\n        x;\nwhile (b);\n" ∧
      ¬∃ blanks x y, (∀ c ∈ blanks, isBlank c = true) ∧
        (outputLines .default source)[1]? = some (blanks ++ 'd' :: x) ∧
        (outputLines .default source)[3]? = some (blanks ++ 'w' :: y) := by
  intro a b x trees source tokens
  have hread : tokenize .c 4 source
      = ⟨[⟨.word, "if", 0, "", 0, false⟩, ⟨.punctuation, "(", 0, " ", 3, false⟩,
          ⟨.word, "a", 0, "", 4, false⟩, ⟨.punctuation, ")", 0, "", 5, false⟩,
          ⟨.word, "do", 1, "", 0, false⟩, ⟨.word, "x", 1, "", 0, false⟩,
          ⟨.punctuation, ";", 0, "", 1, false⟩, ⟨.word, "while", 1, "", 0, false⟩,
          ⟨.punctuation, "(", 0, " ", 6, false⟩, ⟨.word, "b", 0, "", 7, false⟩,
          ⟨.punctuation, ")", 0, "", 8, false⟩, ⟨.punctuation, ";", 0, "", 9, false⟩],
        1, some .linux⟩ := by
    show tokenize .c 4 "if (a)\ndo\nx;\nwhile (b);\n" = _
    decide +kernel
  have htokens : tokens = _ := congrArg TokenStream.tokens hread
  have hformat : format .default source = "if (a)\n    do\n        x;\nwhile (b);\n" := by
    rw [format, show tokenize Options.default.language Options.default.indentWidth source = _
      from hread]
    decide +kernel
  have hlines : (outputLines .default source)[1]? = some "    do".toList ∧
      (outputLines .default source)[3]? = some "while (b);".toList := by
    rw [outputLines, hformat]
    decide
  refine ⟨by decide +kernel, ?_, List.mem_singleton.mpr rfl, ?_, ?_, ?_, ?_, hformat, ?_⟩
  · rw [hread]
    exact ⟨by decide, by decide⟩
  · rw [htokens]
    exact ⟨_, rfl, ⟨rfl, by decide⟩, rfl⟩
  · rw [htokens]
    exact ⟨_, rfl, ⟨rfl, by decide⟩, rfl⟩
  · rw [htokens]
    decide +kernel
  · rw [htokens]
    decide +kernel
  · rintro ⟨blanks, x, y, hblank, hx, hy⟩
    have hdo := Option.some.inj (hlines.1.symm.trans hx)
    have hwhile := Option.some.inj (hlines.2.symm.trans hy)
    cases blanks with
    | nil => exact absurd (List.cons.inj hdo).1 (by decide)
    | cons c blanks =>
        obtain rfl : 'w' = c := (List.cons.inj hwhile).1
        exact absurd (hblank 'w' List.mem_cons_self) (by decide)

end Beautifier.Nesting
