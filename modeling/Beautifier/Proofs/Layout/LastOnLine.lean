/-
What ends a line.

A line comment or a directive runs up to the end of its line, so whatever is
written behind it on the page is read as part of it.  Each token that follows
one in the source starts a line in the source, and then it starts a line on
the page.  An inserted opening brace stands on no line of its own, and it
alone can go on with the line: when no style moves it and nothing forces a
line break (`StaysBehind`).  A line comment or directive is the last token on
its line exactly if no such brace follows (`lines_suffix_layOut_iff`).
-/
import Beautifier.Proofs.Layout.Stage
import Beautifier.Proofs.Layout.Joining
import Beautifier.Proofs.Token.Partition

namespace Beautifier

/-- An inserted opening brace goes on with its line in a state, though no code may follow on the
line: it is kept where it is, or attached to no owner, and no line break is owed. -/
structure StaysBehind (o : Options) (s : State) (c : Cursor) : Prop where
  inserted : c.token = BraceInsertion.openingBrace
  notForced : s.forceBreak = false
  kept : Plan.placement o s (Plan.opening c o s) = .keep ∨
    Plan.placement o s (Plan.opening c o s) = .attach ∧ Plan.ownsBlock s.stmt = false

/-- The token at a position is an inserted opening brace that stays behind what stands on the
line. -/
def BraceStaysBehind (o : Options) (tokens : List Token) (n : Nat) : Prop :=
  ∃ t, tokens[n]? = some t ∧ StaysBehind o (stage o tokens n).state (cursorAt tokens n t)

def Token.lastLine (t : Token) : List Char :=
  (linesOf (glyphs t.text.toList)).2.getLastD (linesOf (glyphs t.text.toList)).1

namespace Page

/-! ## Lines already written -/

/-- All but the newest line of a page stand on another one as they are, and the newest line has
at most got longer. -/
def Later (p q : Page) : Prop :=
  ∀ l earlier, p.lines = l :: earlier → ∃ above l', q.lines = above ++ l' :: earlier ∧
    l.text.toList <+: l'.text.toList

variable {p q r : Page}

theorem Later.refl (p : Page) : p.Later p :=
  fun l _ h => ⟨[], l, h, List.prefix_rfl⟩

theorem Later.trans (hpq : p.Later q) (hqr : q.Later r) : p.Later r := by
  intro l earlier hl
  obtain ⟨above, l', hq, hprefix⟩ := hpq l earlier hl
  cases above with
  | nil =>
      obtain ⟨above, l'', hr, hprefix'⟩ := hqr l' earlier hq
      exact ⟨above, l'', hr, hprefix.trans hprefix'⟩
  | cons x above =>
      obtain ⟨above', x', hr, -⟩ := hqr x (above ++ l' :: earlier) hq
      exact ⟨above' ++ x' :: above, l', by rw [hr]; simp, hprefix⟩

/-- Once a newer line has been started, a page stands on all later ones as it is. -/
theorem Later.suffix (hqr : q.Later r) (hpq : p.lines <:+ q.lines.tail) (hq : q.lines ≠ []) :
    p.lines <:+ r.lines := by
  obtain ⟨x, earlier, hx⟩ := List.exists_cons_of_ne_nil hq
  obtain ⟨above, x', hr, -⟩ := hqr x earlier hx
  rw [hx, List.tail_cons] at hpq
  rw [hr]
  exact hpq.trans ⟨above ++ [x'], by simp⟩

/-- A page whose newest line has got longer stands on no later one as it was. -/
theorem Later.not_suffix {l l' : Line} {earlier : List Line} (hqr : q.Later r)
    (hp : p.lines = l :: earlier) (hq : q.lines = l' :: earlier)
    (hlt : l.text.toList.length < l'.text.toList.length) : ¬p.lines <:+ r.lines := by
  obtain ⟨above, l'', hr, hprefix⟩ := hqr l' earlier hq
  intro hsuffix
  have hlines : p.lines = l'' :: earlier := by
    apply (List.suffix_of_suffix_length_le hsuffix (hr ▸ List.suffix_append ..) _).eq_of_length
    · rw [hp, List.length_cons, List.length_cons]
    · rw [hp, List.length_cons, List.length_cons]
  rw [hp] at hlines
  cases hlines
  exact absurd hprefix.length_le (Nat.not_le_of_lt hlt)

/-! ## Writing a token -/

theorem lines_amend (p : Page) (f : Line → Line) :
    (p.amend f).lines = f (p.lines.headD (.empty .zero)) :: p.lines.tail := by
  unfold amend
  split
  · next h => rw [h]; rfl
  · next h => rw [h]; rfl

theorem text_mark (kind : TokenKind) (l : Line) : (l.mark kind).text = l.text := by
  cases kind <;> rfl

theorem lines_push (p : Page) (width : Nat) (kind : TokenKind) (shift : Int) (text : String) :
    ∃ above l, (p.push width kind shift text).lines = above ++ l :: p.lines.tail ∧
      l.text.toList = (p.lines.headD (.empty .zero)).text.toList
        ++ (linesOf (glyphs text.toList)).1 := by
  simp only [push, lines_amend]
  generalize (linesOf (glyphs text.toList)).1 = first
  generalize (linesOf (glyphs text.toList)).2 = others
  generalize p.lines.headD (.empty .zero) = l
  have hbegun : (if (Line.keepsBlanks kind && !others.isEmpty) = true
      then { l.append (String.ofList first) with trimmed := false }
      else l.append (String.ofList first)).text.toList = l.text.toList ++ first := by
    split <;> simp [Line.append]
  generalize (others.map (Line.continuation kind width shift)).reverse = above
  cases above with
  | nil => exact ⟨[], _, rfl, by rw [text_mark]; exact hbegun⟩
  | cons x above => exact ⟨x.mark kind :: above, _, rfl, hbegun⟩

theorem newest_push (p : Page) (width : Nat) {kind : TokenKind} (shift : Int) (text : String)
    (hkind : kind ≠ .blockComment) :
    ∃ (l : Line) (earlier : List Line),
      (p.push width kind shift text).lines = l.mark kind :: earlier ∧
      (linesOf (glyphs text.toList)).2.getLastD (linesOf (glyphs text.toList)).1
        <:+ l.text.toList := by
  simp only [push, lines_amend]
  generalize (linesOf (glyphs text.toList)).1 = first
  generalize (linesOf (glyphs text.toList)).2 = others
  cases others using List.reverseRecOn with
  | nil =>
      refine ⟨_, _, rfl, ?_⟩
      simp [Line.append, List.suffix_append]
  | append_singleton others last =>
      refine ⟨_, _, rfl, ?_⟩
      cases kind <;> simp_all [Line.continuation]

theorem later_step (o : Options) (r : Progress) (c : Cursor) : r.page.Later (r.step o c).page := by
  intro l earlier hl
  simp only [Progress.step, write]
  generalize (c.plan o r.state r.conditionals r.page).layout = layout
  obtain ⟨above, l', hlines, htext⟩ := lines_push (r.page.ready o c.token layout) o.indentWidth
    c.token.kind ((r.page.ready o c.token layout).shift o c.token) c.token.text
  rw [hlines]
  cases layout with
  | newLine indent blankLines =>
      simp only [ready, newLine, List.tail_cons, hl] at hlines ⊢
      exact ⟨above ++ l' :: List.replicate blankLines (.empty .zero), l, by simp,
        List.prefix_rfl⟩
  | sameLine spacing =>
      simp only [ready, space, lines_amend, hl, List.tail_cons, List.headD_cons] at htext ⊢
      refine ⟨above, l', rfl, ?_⟩
      rw [htext, Line.append, String.toList_append, List.append_assoc]
      exact List.prefix_append ..

theorem suffix_tail_step {o : Options} {r : Progress} {c : Cursor} {indent : Indent}
    {blankLines : Nat}
    (h : (c.plan o r.state r.conditionals r.page).layout = .newLine indent blankLines) :
    r.page.lines <:+ (r.step o c).page.lines.tail ∧ (r.step o c).page.lines ≠ [] := by
  simp only [Progress.step, write, h]
  obtain ⟨above, l', hlines, -⟩ := lines_push (r.page.ready o c.token (.newLine indent blankLines))
    o.indentWidth c.token.kind
    ((r.page.ready o c.token (.newLine indent blankLines)).shift o c.token) c.token.text
  rw [hlines]
  simp only [ready, newLine, List.tail_cons]
  refine ⟨?_, by simp⟩
  cases above with
  | nil => exact List.suffix_append ..
  | cons x above => exact ⟨above ++ l' :: List.replicate blankLines (.empty .zero), by simp⟩

theorem longer_step {o : Options} {r : Progress} {c : Cursor} {spacing : Spacing} {l : Line}
    {earlier : List Line}
    (h : (c.plan o r.state r.conditionals r.page).layout = .sameLine spacing)
    (hc : c.token = BraceInsertion.openingBrace) (hl : r.page.lines = l :: earlier) :
    ∃ l', (r.step o c).page.lines = l' :: earlier ∧
      l.text.toList.length < l'.text.toList.length := by
  simp only [Progress.step, write, h, hc, ready, space]
  have hlines : linesOf (glyphs BraceInsertion.openingBrace.text.toList) = (['\x7b'], []) := by
    decide
  simp only [push, hlines, lines_amend, hl, List.headD_cons, List.tail_cons, List.map_nil,
    List.reverse_nil, List.nil_append]
  refine ⟨_, rfl, ?_⟩
  rw [text_mark]
  simp [Line.append]

end Page

/-! ## Plans behind the end of a line -/

section
variable {o : Options} {s : State} {page : Page} {c : Cursor}

theorem StaysBehind.sameLine (h : StaysBehind o s c) (cs : List Conditional)
    (hempty : page.isEmpty = false) :
    ∃ spacing, (c.plan o s cs page).layout = .sameLine spacing := by
  obtain ⟨hins, hforce, hkept⟩ := h
  have hbreaks : c.token.lineBreaks = 0 := by rw [hins]; rfl
  have hopens : Plan.opensLine c s page (Plan.placement o s (Plan.opening c o s)) = false := by
    unfold Plan.opensLine
    rw [hempty, hforce]
    rcases hkept with hkeep | ⟨hattach, howns⟩
    · simp [hkeep, hbreaks]
    · simp [hattach, howns, hbreaks]
  have hplan : c.plan o s cs page = .openBrace c o s cs page := by
    rw [Cursor.plan, hins]
    rfl
  refine ⟨Plan.openSpacing c s (Plan.placement o s (Plan.opening c o s)), ?_⟩
  rw [hplan]
  show (if _ then Layout.newLine _ _ else _) = _
  rw [hopens]
  rfl

/-- Where no code may follow on the newest line, a token that starts a line in the source, or an
inserted opening brace, goes on with the line only if it is a brace that stays behind. -/
theorem staysBehind_of_joinsLine {spacing : Spacing} (h : JoinsLine o s page c spacing)
    (hjoin : page.canJoin = false)
    (hbreaks : 0 < c.token.lineBreaks ∨ c.token = BraceInsertion.openingBrace) :
    StaysBehind o s c := by
  have hpos : c.token.is "\x7b" = false → 0 < c.token.lineBreaks := by
    intro hne
    rcases hbreaks with hpos | hins
    · exact hpos
    · rw [hins] at hne
      cases hne
  cases h with
  | comment hkind hzero =>
      have := hpos (by rcases hkind with hkind | hkind <;> simp [Token.is, hkind])
      omega
  | closeBrace hclose hzero =>
      have htext := eq_of_beq (Bool.and_eq_true_iff.mp hclose).2
      have := hpos (by simp [Token.is, htext])
      omega
  | code _ hopen hplace =>
      have := hpos hopen
      rcases hplace with ⟨hcan, -⟩ | hzero
      · rw [hjoin] at hcan
        cases hcan
      · omega
  | openBrace hopen hopens =>
      unfold Plan.opensLine at hopens
      simp only [Bool.or_eq_false_iff] at hopens
      obtain ⟨⟨-, hforce⟩, hplace⟩ := hopens
      have hins : c.token = BraceInsertion.openingBrace := by
        rcases hbreaks with hpos | hins
        · cases hp : Plan.placement o s (Plan.opening c o s) <;>
            simp [hp, hpos, hjoin] at hplace
        · exact hins
      refine ⟨hins, hforce, ?_⟩
      cases hp : Plan.placement o s (Plan.opening c o s) with
      | keep => exact .inl rfl
      | «break» => simp [hp] at hplace
      | attach =>
          refine .inr ⟨rfl, ?_⟩
          rw [← Bool.not_eq_true]
          intro howns
          simp [hp, howns, hjoin] at hplace

end

/-! ## The tokens that are laid out -/

/-- What may follow a token that runs up to the end of its line. -/
def MayFollow (t u : Token) : Prop :=
  t.endsLine = true → 0 < u.lineBreaks ∨ u = BraceInsertion.openingBrace

theorem isChain_append {front out : List Token} (hfront : ∀ t ∈ front, t.endsLine = false)
    (h : out.IsChain MayFollow) : (front ++ out).IsChain MayFollow := by
  induction front with
  | nil => exact h
  | cons t front ih =>
      refine List.isChain_cons.mpr ⟨fun u _ hends => ?_, ?_⟩
      · rw [hfront t List.mem_cons_self] at hends
        cases hends
      · exact ih fun u hu => hfront u (List.mem_cons_of_mem _ hu)

theorem head_insertAt {n : Nat} {opens closes : List Nat} {ts : List Token} {u : Token}
    (h : u ∈ (BraceInsertion.insertAt n opens closes ts).head?) :
    u = BraceInsertion.openingBrace ∨ u ∈ ts.head? := by
  cases ts with
  | nil => cases h
  | cons t ts =>
      simp only [BraceInsertion.insertAt] at h
      generalize opens.takeWhile (· == n) = front at h
      cases front with
      | nil => exact .inr h
      | cons p ps =>
          cases h
          exact .inl rfl

theorem isChain_insertAt {n : Nat} {opens closes : List Nat} {ts : List Token}
    (h : ts.IsChain fun t u => t.endsLine = true → 0 < u.lineBreaks) :
    (BraceInsertion.insertAt n opens closes ts).IsChain MayFollow := by
  induction ts generalizing n opens closes with
  | nil => exact .nil
  | cons t ts ih =>
      obtain ⟨hnext, htail⟩ := List.isChain_cons.mp h
      have hrest := @ih (n + 1) (opens.dropWhile (· == n)) (closes.dropWhile (· == n)) htail
      have hput : ∀ (ps : List Nat) (b : Token), b.endsLine = false →
          ∀ u ∈ ps.map fun _ => b, u.endsLine = false := by
        intro ps b hb u hu
        obtain ⟨_, _, rfl⟩ := List.mem_map.mp hu
        exact hb
      simp only [BraceInsertion.insertAt, List.append_assoc, List.cons_append]
      refine isChain_append (hput _ BraceInsertion.openingBrace rfl) ?_
      refine List.isChain_cons.mpr ⟨?_, isChain_append
        (hput _ BraceInsertion.closingBrace rfl) hrest⟩
      intro u hu hends
      generalize closes.takeWhile (· == n) = front at hu
      cases front with
      | cons p ps =>
          cases hu
          exact .inl Nat.one_pos
      | nil =>
          rcases head_insertAt hu with rfl | hu
          · exact .inr rfl
          · exact .inl (hnext u hu hends)

theorem isChain_tokensToLayOut (o : Options) {stream : TokenStream}
    (h : stream.tokens.IsChain fun t u => t.endsLine = true → 0 < u.lineBreaks) :
    (tokensToLayOut o stream).IsChain MayFollow := by
  unfold tokensToLayOut
  split
  · exact isChain_insertAt h
  · exact h.imp fun _ _ hbreaks hends => .inl (hbreaks hends)

/-! ## The run -/

theorem later_stage (o : Options) (tokens : List Token) {m n : Nat} (h : m ≤ n) :
    (stage o tokens m).page.Later (stage o tokens n).page := by
  induction h with
  | refl => exact .refl _
  | @step n _ ih =>
      cases hget : tokens[n]? with
      | none => rwa [stage, hget]
      | some t =>
          rw [stage_succ hget]
          exact ih.trans (Page.later_step o _ _)

/-- Behind a token that runs up to the end of its line no code may follow on the newest line, and
the line ends in the last line of the token. -/
theorem stage_of_endsLine {o : Options} {tokens : List Token} {n : Nat} {t : Token}
    (hget : tokens[n]? = some t) (ht : t.endsLine = true) :
    ∃ l earlier, (stage o tokens (n + 1)).page.lines = l :: earlier ∧
      t.lastLine <:+ l.text.toList ∧ (stage o tokens (n + 1)).page.canJoin = false := by
  have hkind : t.kind ≠ .blockComment := by
    intro hkind
    rw [Token.endsLine, hkind] at ht
    cases ht
  rw [stage_succ hget]
  simp only [Progress.step, Page.write]
  obtain ⟨l, earlier, hlines, hlast⟩ := Page.newest_push _ o.indentWidth _ t.text hkind
  have hjoin : ∀ p : Page, p.lines = l.mark t.kind :: earlier → p.canJoin = false := by
    intro p hp
    rw [Page.canJoin, hp]
    cases hkind : t.kind <;> simp_all [Token.endsLine, Line.mark]
  refine ⟨l.mark t.kind, earlier, hlines, ?_, hjoin _ hlines⟩
  rw [Page.text_mark]
  exact hlast

theorem mayFollow_of_isChain {tokens : List Token} (hchain : tokens.IsChain MayFollow) {n : Nat}
    {t u : Token} (hget : tokens[n]? = some t) (hu : tokens[n + 1]? = some u) : MayFollow t u := by
  obtain ⟨hlt, rfl⟩ := List.getElem?_eq_some_iff.mp hu
  have hstep := List.isChain_iff_getElem.mp hchain n hlt
  rwa [(List.getElem?_eq_some_iff.mp hget).2] at hstep

/-- A line comment or directive is the last token on its line exactly if the token behind it is
not an inserted brace that goes on with the line. -/
theorem suffix_layOut_iff {o : Options} {tokens : List Token} (hchain : tokens.IsChain MayFollow)
    {n : Nat} {t : Token} (hget : tokens[n]? = some t) (ht : t.endsLine = true) :
    (stage o tokens (n + 1)).page.lines <:+ (layOut o tokens).lines ↔
      ¬BraceStaysBehind o tokens (n + 1) := by
  obtain ⟨l, earlier, hlines, -, hjoin⟩ := stage_of_endsLine (o := o) hget ht
  have hn : n < tokens.length := (List.getElem?_eq_some_iff.mp hget).1
  rw [layOut_eq_stage]
  rcases Nat.eq_or_lt_of_le (Nat.succ_le_of_lt hn) with hlast | hlt
  · -- the last token: nothing follows
    rw [← hlast]
    refine ⟨fun _ => ?_, fun _ => List.suffix_rfl⟩
    rintro ⟨u, hu, -⟩
    rw [List.getElem?_eq_none hlast.symm.le] at hu
    cases hu
  · have hu : tokens[n + 1]? = some tokens[n + 1] := List.getElem?_eq_getElem hlt
    have hempty : (stage o tokens (n + 1)).page.isEmpty = false := by
      rw [Page.isEmpty, hlines]
      rfl
    have hlater := later_stage o tokens (Nat.succ_le_of_lt hlt)
    rw [stage_succ hu] at hlater
    cases hlayout : ((cursorAt tokens (n + 1) tokens[n + 1]).plan o
        (stage o tokens (n + 1)).state (stage o tokens (n + 1)).conditionals
        (stage o tokens (n + 1)).page).layout with
    | newLine indent blankLines =>
        obtain ⟨hsuffix, hne⟩ := Page.suffix_tail_step hlayout
        refine ⟨fun _ => ?_, fun _ => hlater.suffix hsuffix hne⟩
        rintro ⟨u, hu', hstays⟩
        rw [hu] at hu'
        cases hu'
        obtain ⟨spacing, hsame⟩ := hstays.sameLine (stage o tokens (n + 1)).conditionals hempty
        rw [hsame] at hlayout
        cases hlayout
    | sameLine spacing =>
        have hstays := staysBehind_of_joinsLine (joinsLine_of_sameLine hlayout) hjoin
          (mayFollow_of_isChain hchain hget hu ht)
        obtain ⟨l', hlines', hlonger⟩ := Page.longer_step hlayout hstays.inserted hlines
        have hno := hlater.not_suffix hlines hlines' hlonger
        exact ⟨fun hsuffix => absurd hsuffix hno, fun hnone => absurd ⟨_, hu, hstays⟩ hnone⟩

/-- Where no token is an inserted one, none stays behind. -/
theorem not_braceStaysBehind {o : Options} {tokens : List Token}
    (htokens : ∀ t ∈ tokens, t.inserted = false) (n : Nat) : ¬BraceStaysBehind o tokens n := by
  rintro ⟨u, hu, hstays⟩
  have hins : u.inserted = false := htokens u (List.mem_of_getElem? hu)
  have hbrace : u = BraceInsertion.openingBrace := hstays.inserted
  rw [hbrace] at hins
  cases hins

/-- A line comment or directive that is laid out stands at the end of its line, and nothing is
ever written behind it there, exactly if the token behind it is not an inserted opening brace
that goes on with the line.  Without added braces there is none. -/
theorem lines_suffix_layOut_iff (o : Options) (source : String) {n : Nat} {t : Token}
    (hget : (tokensToLayOut o (tokenize o.language o.indentWidth source))[n]? = some t)
    (ht : t.endsLine = true) :
    let tokens := tokensToLayOut o (tokenize o.language o.indentWidth source)
    (∃ l earlier, (stage o tokens (n + 1)).page.lines = l :: earlier ∧
        t.lastLine <:+ l.text.toList) ∧
      ((stage o tokens (n + 1)).page.lines <:+ (layOut o tokens).lines ↔
        ¬BraceStaysBehind o tokens (n + 1)) ∧
      (o.addBraces = false → ¬BraceStaysBehind o tokens (n + 1)) := by
  intro tokens
  have hpart := partition_tokenize o.language o.indentWidth source
  obtain ⟨l, earlier, hlines, hlast, -⟩ := stage_of_endsLine (o := o) hget ht
  refine ⟨⟨l, earlier, hlines, hlast⟩,
    suffix_layOut_iff (isChain_tokensToLayOut o hpart.isChain_lineBreaks) hget ht, ?_⟩
  intro hadd
  have htokens : tokens = (tokenize o.language o.indentWidth source).tokens :=
    if_neg (by rw [hadd]; exact Bool.false_ne_true)
  rw [htokens]
  exact not_braceStaysBehind hpart.not_inserted (n + 1)

/-- A line comment at the end of a line keeps the code behind it off its line. -/
theorem lines_suffix_layOut_plain :
    (tokensToLayOut .default (tokenize .c 4 "a; // b\nc;\n"))[2]?
        = some ⟨.lineComment, "// b", 0, " ", 3, false⟩ ∧
      (stage .default (tokensToLayOut .default (tokenize .c 4 "a; // b\nc;\n")) 3).page.lines
        <:+ (layOut .default (tokensToLayOut .default (tokenize .c 4 "a; // b\nc;\n"))).lines := by
  have hget : (tokensToLayOut .default (tokenize .c 4 "a; // b\nc;\n"))[2]?
      = some ⟨.lineComment, "// b", 0, " ", 3, false⟩ := by decide +kernel
  obtain ⟨-, hiff, hnone⟩ := lines_suffix_layOut_iff .default "a; // b\nc;\n" hget rfl
  exact ⟨hget, hiff.mpr (hnone rfl)⟩

/-- With a line comment between a header and its body, the brace that is put in is written into
the comment. -/
theorem not_lines_suffix_layOut_comment :
    let o := Options.default.turnOn .addBraces
    let tokens := tokensToLayOut o (tokenize o.language o.indentWidth "if (a) // c\n    b;\n")
    tokens[4]?.any (·.endsLine) = true ∧
      ¬(stage o tokens 5).page.lines <:+ (layOut o tokens).lines ∧
      format o "if (a) // c\n    b;\n" = "if (a) // c \x7b\n    b;\n\x7d\n" := by
  intro o tokens
  have hstream : tokenize o.language o.indentWidth "if (a) // c\n    b;\n"
      = ⟨[⟨.word, "if", 0, "", 0, false⟩, ⟨.punctuation, "(", 0, " ", 3, false⟩,
          ⟨.word, "a", 0, "", 4, false⟩, ⟨.punctuation, ")", 0, "", 5, false⟩,
          ⟨.lineComment, "// c", 0, " ", 7, false⟩, ⟨.word, "b", 1, "    ", 4, false⟩,
          ⟨.punctuation, ";", 0, "", 5, false⟩], 1, some .linux⟩ := by
    show tokenize .c 4 "if (a) // c\n    b;\n" = _
    decide +kernel
  simp only [tokens, format, hstream]
  refine ⟨by decide +kernel, fun h => ?_, by decide +kernel⟩
  have htexts := h.map Line.text
  revert htexts
  decide +kernel

end Beautifier
