/-
Tokens written one behind another.

`Spells` says that a list of glyphs holds a copy of each token behind a gap.
A gap may be empty only where the reader of the token before it does not go
on: where nothing stood between the two tokens either, in front of a bracket
or the like, or behind a token that stops there (`Joins`).  What a layout of
this form is read as says the same as the tokens (`content_readTokens`), up to
the last of them if something else stands behind it (`readTokens_front`).
-/
import Beautifier.Proofs.Token.Copy

namespace Beautifier

/-- Whether a token starts with a character that is a token of its own. -/
def Token.startsSolo (t : Token) : Bool := t.text.toList.head?.any isSolo

/-- What may be written between two tokens, or in front of the first. -/
structure Joins (e : LineEnd) (prev : Option Token) (t : Token) (gap : List Glyph) : Prop where
  isGap : ∀ g ∈ gap, g.isGap = true
  plain : Plain e gap
  /-- A token that runs up to the end of its line is followed by a line break. -/
  ends : ∀ p ∈ prev, p.endsLine = true → ∃ gap', gap = .lineBreak e :: gap'
  /-- A directive starts a line. -/
  starts : t.kind = .directive → prev = none ∨ .lineBreak e ∈ gap
  tight : gap = [] → ∀ p ∈ prev,
    (t.lineBreaks = 0 ∧ t.space = "") ∨ t.startsSolo = true ∨ p.stopsBefore t = true

/-- Copies of tokens behind gaps, with the token in front of them. -/
inductive Spells (e : LineEnd) : Option Token → List Token → List Glyph → Prop
  | nil {prev : Option Token} : Spells e prev [] []
  | cons {prev : Option Token} {t : Token} {ts : List Token} {gap copy gs : List Glyph} :
      Joins e prev t gap → Copies e t copy → Spells e (some t) ts gs →
      Spells e prev (t :: ts) (gap ++ (copy ++ gs))

namespace Spells

variable {e : LineEnd} {prev : Option Token} {t : Token} {ts : List Token}
  {gap copy gs : List Glyph}

theorem snoc (h : Spells e prev ts gs) (hjoins : Joins e (ts.getLast? <|> prev) t gap)
    (hcopy : Copies e t copy) : Spells e prev (ts ++ [t]) (gs ++ (gap ++ copy)) := by
  induction h with
  | nil =>
      have hone := Spells.cons hjoins hcopy .nil
      rwa [List.append_nil] at hone
  | @cons prev u us gap' copy' gs hjoins' hcopy' _ ih =>
      rw [List.cons_append, List.append_assoc, List.append_assoc]
      refine .cons hjoins' hcopy' (ih ?_)
      rw [List.getLast?_cons] at hjoins
      cases hlast : us.getLast? with
      | none => simpa [hlast] using hjoins
      | some v => simpa [hlast] using hjoins

theorem snoc_inv (h : Spells e prev (ts ++ [t]) gs) :
    ∃ gs' gap copy, gs = gs' ++ (gap ++ copy) ∧ Spells e prev ts gs' ∧
      Joins e (ts.getLast? <|> prev) t gap ∧ Copies e t copy := by
  induction ts generalizing prev gs with
  | nil =>
      cases h with
      | @cons _ _ _ gap copy _ hjoins hcopy hrest =>
          cases hrest
          exact ⟨[], gap, copy, by simp, .nil, hjoins, hcopy⟩
  | cons u us ih =>
      cases h with
      | @cons _ _ _ gap' copy' _ hjoins' hcopy' hrest =>
          obtain ⟨gs', gap, copy, rfl, hspells, hjoins, hcopy⟩ := ih hrest
          refine ⟨gap' ++ (copy' ++ gs'), gap, copy, by simp, .cons hjoins' hcopy' hspells, ?_,
            hcopy⟩
          rw [List.getLast?_cons]
          cases hlast : us.getLast? with
          | none => simpa [hlast] using hjoins
          | some v => simpa [hlast] using hjoins

theorem of_append_blanks {language : Language} {blanks : List Char}
    (hblanks : ∀ c ∈ blanks, isBlank c = true) (h : Spells e prev ts (gs ++ blanks.map .char))
    (hts : ∀ t ∈ ts, t.IsRead language) (hne : ts ≠ []) : Spells e prev ts gs := by
  obtain ⟨init, t, rfl⟩ := List.eq_nil_or_concat ts |>.resolve_left hne
  rw [List.concat_eq_append] at h hts ⊢
  obtain ⟨gs', gap, copy, heq, hspells, hjoins, hcopy⟩ := h.snoc_inv
  obtain ⟨_, first, _, _, ht⟩ := hts t (by simp)
  rw [← List.append_assoc] at heq
  rcases List.append_eq_append_iff.mp heq with ⟨front, hgap, hcut⟩ | ⟨copy', rfl, hcut⟩
  · -- the blanks do not reach beyond the copy, which does not start with one
    obtain ⟨tail, rfl, -⟩ := hcopy.exists_tail ht
    have hmem : Glyph.char first ∈ blanks.map .char := by
      rw [hcut]
      exact List.mem_append_right _ List.mem_cons_self
    obtain ⟨c, hc, heq⟩ := List.mem_map.mp hmem
    cases heq
    have hblank := hblanks first hc
    rw [ht.not_isBlank] at hblank
    cases hblank
  · rw [hcut] at hcopy
    rw [List.append_assoc]
    exact hspells.snoc hjoins (hcopy.of_append_blanks hblanks ht)

theorem plain {language : Language} (h : Spells e prev ts gs)
    (hts : ∀ t ∈ ts, t.IsRead language) : Plain e gs := by
  induction h with
  | nil => exact plain_nil
  | cons hjoins hcopy _ ih =>
      refine plain_append.mpr ⟨hjoins.plain, plain_append.mpr ⟨?_, ?_⟩⟩
      · obtain ⟨_, _, _, _, ht⟩ := hts _ List.mem_cons_self
        exact hcopy.plain ht.plain_text
      · exact ih fun t ht => hts t (List.mem_cons_of_mem _ ht)

end Spells

/-! ## What stands behind a token -/

/-- A token of a source without carriage returns, with what is left of the source. -/
theorem Token.readFrom_of_reads {language : Language} {t : Token} {atLineStart : Bool}
    {first : Char} {rest : List Glyph} {cut : Cut}
    (hreads : Scanner.Reads language atLineStart first rest t.kind cut)
    (htext : t.text = Glyph.textOf (.char first :: cut.taken))
    (hplain : Plain .linux (.char first :: rest)) (hfirst : isGapChar first = false)
    (hsettled : t.Settled language) :
    t.ReadFrom language atLineStart first rest cut ∧ cut.taken ++ cut.rest = rest ∧
      Plain .linux cut.rest := by
  have hreturn : NoReturn rest := fun e he => (plain_cons.mp hplain).2 _ he
  have hcut : cut.taken ++ cut.rest = rest := hreads.source_eq hreturn
  rw [← hcut, ← List.cons_append] at hplain
  obtain ⟨htaken, hrest⟩ := plain_append.mp hplain
  refine ⟨⟨hreads, ?_, htaken, hfirst, hsettled⟩, hcut, hrest⟩
  rw [htext, Glyph.textOf, String.toList_ofList, glyphs_charsOf htaken]

namespace Partition

variable {language : Language} {source : List Glyph} {ts : List Token} {trailing : Nat}

/-- The tokens of a source without carriage returns are read from it. -/
theorem isRead (h : Partition language source ts trailing) (hplain : Plain .linux source)
    (hts : ∀ t ∈ ts, t.Settled language) : ∀ t ∈ ts, t.IsRead language := by
  induction h with
  | done => simp
  | @token gap rest first atLineStart cut t ts trailing _ hfirst hreads htext _ _ _ _ ih =>
      obtain ⟨ht, -, hrest⟩ := Token.readFrom_of_reads hreads htext (plain_append.mp hplain).2
        hfirst (hts t List.mem_cons_self)
      intro u hu
      rcases List.mem_cons.mp hu with rfl | hu
      · exact ⟨_, _, _, _, ht⟩
      · exact ih hrest (fun t ht => hts t (List.mem_cons_of_mem _ ht)) u hu

theorem nil_inv (h : Partition language [] ts trailing) : ts = [] ∧ trailing = 0 := by
  generalize hsource : ([] : List Glyph) = source at h
  cases h with
  | done =>
      cases hsource
      exact ⟨rfl, rfl⟩
  | token =>
      have hlength := congrArg List.length hsource
      simp at hlength

theorem gap_eq_nil {gap : List Glyph} (hbreaks : gapBreaks gap = 0)
    (hspace : String.ofList (gapSpace gap) = "") : gap = [] := by
  have hothers : (linesOf gap).2 = [] := List.length_eq_zero_iff.mp hbreaks
  have hfirst : (linesOf gap).1 = [] := by
    have hspace := congrArg String.toList hspace
    rwa [String.toList_ofList, gapSpace, hothers] at hspace
  have hjoin := joinLines_linesOf .linux gap
  rw [hothers, hfirst] at hjoin
  exact List.map_eq_nil_iff.mp hjoin.symm

end Partition

namespace Token.ReadFrom

variable {language : Language} {t : Token} {atLineStart : Bool} {first : Char}
  {source : List Glyph} {cut : Cut}

theorem isSolo_of_startsSolo (h : t.ReadFrom language atLineStart first source cut)
    (ht : t.startsSolo = true) : isSolo first = true := by
  rwa [startsSolo, h.text_eq] at ht

theorem stopsAt_of_stopsBefore (h : t.ReadFrom language atLineStart first source cut) {p : Token}
    (hp : p.stopsBefore t = true) : p.stopsAt first = true := by
  rwa [stopsBefore, h.text_eq] at hp

theorem looksPast_eq (h : t.ReadFrom language atLineStart first source cut) :
    looksPast first = t.startsPast := by
  rw [startsPast, h.text_eq]
  rfl

end Token.ReadFrom

/-- Behind a token the reader sees in the copies nothing that it did not see in the source, or the
token is read alone there.  What stands behind the copies is not seen unless it ends a line, where
no reader looks past the start of the last token. -/
theorem Partition.mirrors {language : Language} {e : LineEnd} {source gs behind : List Glyph}
    {ts others : List Token} {trailing : Nat} {p : Token}
    (hsource : Partition language source (ts ++ others) trailing) (hplain : Plain .linux source)
    (hts : ∀ t ∈ ts, t.Settled language) (h : Spells e (some p) ts gs)
    (hbehind : atLineEnd behind = true ∨ ∃ q ∈ ts.getLast?, q.startsPast = false) :
    Mirrors 2 source (gs ++ behind) ∨
      ∃ c tail, gs ++ behind = .char c :: tail ∧ p.stopsAt c = true := by
  induction ts generalizing source p gs with
  | nil =>
      cases h
      exact .inl (.of_atLineEnd (hbehind.resolve_right (by simp)))
  | cons t ts ih =>
      rw [List.cons_append] at hsource
      cases hsource with
      | @token gap rest first atLineStart cut _ _ _ hgap hfirst hreads htext hbreaks hspace _
        hothers =>
      obtain ⟨ht, hcut, hrest⟩ := Token.readFrom_of_reads hreads htext (plain_append.mp hplain).2
        hfirst (hts t List.mem_cons_self)
      cases h with
      | @cons _ _ _ gap' copy gs' hjoins hcopy hspells =>
          obtain ⟨tail, rfl, -⟩ := hcopy.exists_tail ht
          cases gap' with
          | cons g gap' =>
              have hg := hjoins.isGap g List.mem_cons_self
              cases g with
              | lineBreak => exact .inl (.of_atLineEnd rfl)
              | char c =>
                  have hgap : isGapChar c = true := hg
                  exact .inl (.of_not_mayGoOn (by simp [mayGoOn, hgap]))
          | nil =>
              rcases hjoins.tight rfl p rfl with ⟨hzero, hempty⟩ | hsolo | hstops
              · -- nothing stands in front of the token in the source either
                rw [hbreaks] at hzero
                rw [hspace] at hempty
                rw [gap_eq_nil hzero hempty, ← hcut]
                rw [List.nil_append, List.nil_append, List.cons_append, List.cons_append,
                  List.append_assoc]
                refine .inl (hcopy.mirrors ht fun hpast => ?_)
                have hbehind' : atLineEnd behind = true ∨
                    ∃ q ∈ ts.getLast?, q.startsPast = false := by
                  refine hbehind.imp_right ?_
                  rintro ⟨q, hq, hnot⟩
                  cases ts with
                  | nil =>
                      have hsame : t = q := by simpa using hq
                      rw [← hsame, ← ht.looksPast_eq, hpast] at hnot
                      cases hnot
                  | cons u ts => exact ⟨q, by simpa using hq, hnot⟩
                refine (ih hothers hrest (fun t ht => hts t (List.mem_cons_of_mem _ ht)) hspells
                  hbehind').resolve_right ?_
                rintro ⟨c, tail', -, hstops⟩
                rw [ht.stopsAt_eq_false hpast] at hstops
                cases hstops
              · exact .inl (.of_not_mayGoOn (by simp [mayGoOn, ht.isSolo_of_startsSolo hsolo]))
              · exact .inr ⟨first, _, rfl, ht.stopsAt_of_stopsBefore hstops⟩

/-! ## Reading what is written -/

theorem atLineStart_advance {width : Nat} {p : Position} {gs : List Glyph}
    (h : p.atLineStart = true ∨ ∃ e, .lineBreak e ∈ gs) :
    (p.advance width gs).atLineStart = true := by
  induction gs generalizing p with
  | nil =>
      rcases h with h | ⟨e, h⟩
      · exact h
      · cases h
  | cons g gs ih =>
      cases g with
      | lineBreak e => exact ih (.inl rfl)
      | char c =>
          refine ih (h.imp_right ?_)
          rintro ⟨e, h⟩
          rcases List.mem_cons.mp h with h | h
          · cases h
          · exact ⟨e, h⟩

theorem readTokens_gap {language : Language} {width : Nat} {position : Position}
    {gap : List Glyph} (hgap : ∀ g ∈ gap, g.isGap = true) :
    (readTokens language width position gap).tokens = [] := by
  rw [readTokens]
  split
  · rfl
  · next hsplit =>
    rw [splitGap_of_isGap hgap] at hsplit
    cases hsplit

/-- The token that is read behind a gap. -/
def Token.readBehind (width : Nat) (position : Position) (kind : TokenKind)
    (gap taken : List Glyph) : Token where
  kind := kind
  text := Glyph.textOf taken
  lineBreaks := gapBreaks gap
  space := String.ofList (gapSpace gap)
  column := (position.advance width gap).column
  inserted := false

/-- The position behind a gap and a token. -/
def Position.behind (width : Nat) (p : Position) (gap taken : List Glyph) : Position :=
  { (p.advance width gap).advance width taken with atLineStart := false }

theorem readTokens_cons {language : Language} {width : Nat} {position : Position}
    {gap rest : List Glyph} {first : Char} {kind : TokenKind} {cut : Cut}
    (hgap : ∀ g ∈ gap, g.isGap = true) (hfirst : isGapChar first = false)
    (hreads : Scanner.Reads language (position.advance width gap).atLineStart first rest kind cut) :
    readTokens language width position (gap ++ .char first :: rest)
      = let others := readTokens language width
          (position.behind width gap (.char first :: cut.taken)) cut.rest
        { others with tokens :=
            .readBehind width position kind gap (.char first :: cut.taken) :: others.tokens } := by
  rw [readTokens]
  split
  · next hsplit =>
    rw [splitGap_append hgap hfirst] at hsplit
    cases hsplit
  · next first' rest' hsplit =>
    rw [splitGap_append hgap hfirst] at hsplit
    cases hsplit
    simp only [splitGap_append hgap hfirst, Scanner.scan_of_reads hreads]
    rfl

theorem isGap_of_mem_breaks {e : LineEnd} {n : Nat} :
    ∀ g ∈ List.replicate n (Glyph.lineBreak e), g.isGap = true := by
  intro g hg
  rw [(List.mem_replicate.mp hg).2]
  rfl

theorem atLineEnd_breaks (e : LineEnd) (n : Nat) :
    atLineEnd (List.replicate n (Glyph.lineBreak e)) = true := by
  cases n with
  | zero => rfl
  | succ n => rfl

section
variable {language : Language} {e : LineEnd} {source gs behind : List Glyph}
  {ts others : List Token} {trailing : Nat} {prev : Option Token}

/-- A copy of the first token of a source is read in its place, in front of the copies of the
others. -/
theorem Partition.reads_copy {t : Token} {atLineStart start : Bool} {first : Char}
    {rest tail : List Glyph} {cut : Cut}
    (hothers : Partition language cut.rest (ts ++ others) trailing) (hplain : Plain .linux cut.rest)
    (hts : ∀ u ∈ ts, u.Settled language) (hspells : Spells e (some t) ts gs)
    (hbehind : others = [] ∧ behind = List.replicate trailing (.lineBreak e) ∨
      ∃ q ∈ ts.getLast?, q.startsPast = false)
    (ht : t.ReadFrom language atLineStart first rest cut) (hcopy : Copies e t (.char first :: tail))
    (hstart : t.kind = .directive → start = true) :
    Scanner.Reads language start first (tail ++ (gs ++ behind)) t.kind ⟨tail, gs ++ behind⟩ := by
  have hend : atLineEnd behind = true ∨ ∃ q ∈ ts.getLast?, q.startsPast = false := by
    refine hbehind.imp_left ?_
    rintro ⟨-, rfl⟩
    exact atLineEnd_breaks e trailing
  refine hcopy.reads ht hstart (fun hends => ⟨?_, fun hnil => ?_⟩)
    (hothers.mirrors hplain hts hspells hend)
  · cases hspells with
    | nil => exact hend.resolve_right (by simp)
    | cons hjoins _ _ =>
        obtain ⟨gap, rfl⟩ := hjoins.ends t rfl hends
        rfl
  · rw [hnil] at hothers
    obtain ⟨hnone, rfl⟩ := hothers.nil_inv
    obtain ⟨rfl, -⟩ := List.append_eq_nil_iff.mp hnone
    cases hspells
    obtain ⟨-, rfl⟩ := hbehind.resolve_right (by simp)
    rfl

/-- Where copies of the first tokens of a source are written with gaps between them, the first of
them is read as it is written, and says the same. -/
theorem Partition.readTokens_copy {t : Token} {gap copy : List Glyph}
    (hsource : Partition language source (t :: (ts ++ others)) trailing)
    (hplain : Plain .linux source) (hts : ∀ u ∈ t :: ts, u.Settled language)
    (hjoins : Joins e prev t gap) (hcopy : Copies e t copy) (hspells : Spells e (some t) ts gs)
    (hbehind : others = [] ∧ behind = List.replicate trailing (.lineBreak e) ∨
      ∃ q ∈ ts.getLast?, q.startsPast = false)
    (width : Nat) {position : Position} (hprev : prev = none → position.atLineStart = true) :
    (readTokens language width position (gap ++ (copy ++ (gs ++ behind)))
      = let others := readTokens language width (position.behind width gap copy) (gs ++ behind)
        { others with tokens :=
            .readBehind width position t.kind gap copy :: others.tokens }) ∧
      (Token.readBehind width position t.kind gap copy).content = t.content ∧
      ∃ rest, Partition language rest (ts ++ others) trailing ∧ Plain .linux rest := by
  cases hsource with
  | @token _ _ first _ cut _ _ _ _ hfirst hreads htext _ _ _ hothers =>
      obtain ⟨ht, hcut, hrest⟩ := Token.readFrom_of_reads hreads htext (plain_append.mp hplain).2
        hfirst (hts t List.mem_cons_self)
      obtain ⟨tail, rfl, -⟩ := hcopy.exists_tail ht
      have hstart : t.kind = .directive → (position.advance width gap).atLineStart = true := by
        intro hkind
        refine atLineStart_advance ?_
        rcases hjoins.starts hkind with hnone | hbreak
        · exact .inl (hprev hnone)
        · exact .inr ⟨e, hbreak⟩
      refine ⟨readTokens_cons hjoins.isGap hfirst
        (hothers.reads_copy hrest (fun u hu => hts u (List.mem_cons_of_mem _ hu)) hspells hbehind
          ht hcopy hstart), hcopy.content_eq rfl rfl (hcopy.plain ht.plain_text), cut.rest, hothers,
        hrest⟩

/-- Where copies of the tokens of a source are written with gaps between them, and behind them as
many line breaks as in the source, they are read as tokens that say the same. -/
theorem Partition.content_readTokens (hsource : Partition language source ts trailing)
    (hplain : Plain .linux source) (hts : ∀ t ∈ ts, t.Settled language) (h : Spells e prev ts gs)
    (width : Nat) {position : Position} (hprev : prev = none → position.atLineStart = true) :
    (readTokens language width position (gs ++ List.replicate trailing (.lineBreak e))).tokens.map
      Token.content = ts.map Token.content := by
  induction ts generalizing source prev gs position with
  | nil =>
      cases h
      rw [List.nil_append, readTokens_gap isGap_of_mem_breaks, List.map_nil]
  | cons t ts ih =>
      cases h with
      | cons hjoins hcopy hspells =>
          rw [← List.append_nil ts] at hsource
          obtain ⟨hread, hcontent, rest, hothers, hrest⟩ :=
            hsource.readTokens_copy hplain hts hjoins hcopy hspells (.inl ⟨rfl, rfl⟩) width hprev
          rw [List.append_nil] at hothers
          rw [List.append_assoc, List.append_assoc, hread, List.map_cons, List.map_cons, hcontent,
            ih hothers hrest (fun u hu => hts u (List.mem_cons_of_mem _ hu)) hspells nofun]

/-- Copies of the first tokens of a source are read as tokens that say the same if a copy of the
next one follows them, whatever stands behind that: no reader looks past the start of the next
one. -/
theorem Partition.readTokens_front {t : Token} {gap copy : List Glyph}
    (hsource : Partition language source (ts ++ t :: others) trailing)
    (hplain : Plain .linux source) (hts : ∀ u ∈ ts ++ [t], u.Settled language)
    (h : Spells e prev ts gs) (hjoins : Joins e (ts.getLast? <|> prev) t gap)
    (hcopy : Copies e t copy) (hpast : t.startsPast = false) (behind : List Glyph) (width : Nat)
    {position : Position} (hprev : prev = none → position.atLineStart = true) :
    ∃ us position', (readTokens language width position
        (gs ++ (gap ++ (copy ++ behind)))).tokens
        = us ++ (readTokens language width position' (gap ++ (copy ++ behind))).tokens ∧
      us.map Token.content = ts.map Token.content := by
  induction ts generalizing source prev gs position with
  | nil =>
      cases h
      exact ⟨[], position, rfl, rfl⟩
  | cons u ts ih =>
      cases h with
      | @cons _ _ _ gap' copy' gs' hjoins' hcopy' hspells =>
          have hlast : ((u :: ts).getLast? <|> prev) = (ts.getLast? <|> some u) := by
            rw [List.getLast?_cons]
            cases ts.getLast? <;> rfl
          rw [hlast] at hjoins
          have hsource' : Partition language source (u :: ((ts ++ [t]) ++ others)) trailing := by
            simpa using hsource
          obtain ⟨hread, hcontent, rest, hothers, hrest⟩ :=
            hsource'.readTokens_copy hplain hts hjoins' hcopy' (hspells.snoc hjoins hcopy)
              (.inr ⟨t, by simp, hpast⟩) width hprev
          have hothers' : Partition language rest (ts ++ t :: others) trailing := by
            simpa using hothers
          obtain ⟨us, position'', hothers'', hcontents⟩ :=
            ih hothers' hrest (fun u hu => hts u (List.mem_cons_of_mem _ hu)) hspells hjoins nofun
          refine ⟨_ :: us, position'', ?_,
            by rw [List.map_cons, List.map_cons, hcontent, hcontents]⟩
          simp only [List.append_assoc] at hread hothers'' ⊢
          rw [hread]
          show _ :: _ = _
          rw [hothers'', List.cons_append]

end

end Beautifier
