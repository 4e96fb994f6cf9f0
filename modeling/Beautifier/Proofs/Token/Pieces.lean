/-
Text that is written piece by piece.

A piece is a token of a source, the gap written in front of it and the copy
written for it.  Pieces that may stand one behind another (`Piece.Chain`) are
read as one token each, and of that token everything is known, its white space
and its column included (`Partition.readTokens_pieces`,
`Piece.exists_getElem?_read`).
-/
import Beautifier.Proofs.Token.Spelling

namespace Beautifier

/-! ## Positions -/

/-- The column behind a text depends on the column in front of it alone. -/
theorem Position.column_advance_congr {width : Nat} {p q : Position} (h : p.column = q.column)
    (gs : List Glyph) : (p.advance width gs).column = (q.advance width gs).column := by
  induction gs generalizing p q with
  | nil => exact h
  | cons g gs ih =>
      refine ih ?_
      cases g with
      | char c =>
          show Column.step width p.column c = Column.step width q.column c
          rw [h]
      | lineBreak => rfl

theorem Position.advance_append (width : Nat) (p : Position) (gs hs : List Glyph) :
    p.advance width (gs ++ hs) = (p.advance width gs).advance width hs :=
  List.foldl_append

def Glyph.lineEnd? : Glyph → Option LineEnd
  | .char _ => none
  | .lineBreak e => some e

/-- The first line ending that is met is kept. -/
theorem Position.lineEnd_advance (width : Nat) (p : Position) (gs : List Glyph) :
    (p.advance width gs).lineEnd = (p.lineEnd <|> gs.findSome? Glyph.lineEnd?) := by
  induction gs generalizing p with
  | nil => simp [advance]
  | cons g gs ih =>
      rw [advance, List.foldl_cons, ← advance, ih]
      cases g with
      | char c => rfl
      | lineBreak e => cases hp : p.lineEnd <;> simp [step, List.findSome?_cons, Glyph.lineEnd?, hp]

/-! ## Pieces -/

/-- A token with what is written for it. -/
structure Piece where
  token : Token
  gap : List Glyph
  copy : List Glyph

namespace Piece

def glyphs (p : Piece) : List Glyph := p.gap ++ p.copy

/-- Pieces that may be written one behind another, with the token in front of them. -/
inductive Chain (e : LineEnd) : Option Token → List Piece → Prop
  | nil {prev : Option Token} : Chain e prev []
  | cons {prev : Option Token} {p : Piece} {ps : List Piece} : Joins e prev p.token p.gap →
      Copies e p.token p.copy → Chain e (some p.token) ps → Chain e prev (p :: ps)

variable {e : LineEnd} {prev : Option Token} {p : Piece} {ps : List Piece}

theorem Chain.spells (h : Chain e prev ps) :
    Spells e prev (ps.map token) (ps.flatMap glyphs) := by
  induction h with
  | nil => exact .nil
  | cons hjoins hcopy _ ih =>
      rw [List.map_cons, List.flatMap_cons, glyphs, List.append_assoc]
      exact .cons hjoins hcopy ih

theorem Chain.snoc (h : Chain e prev ps)
    (hjoins : Joins e ((ps.map token).getLast? <|> prev) p.token p.gap)
    (hcopy : Copies e p.token p.copy) : Chain e prev (ps ++ [p]) := by
  induction h with
  | nil => exact .cons hjoins hcopy .nil
  | @cons prev q qs hjoins' hcopy' _ ih =>
      refine .cons hjoins' hcopy' (ih ?_)
      rw [List.map_cons, List.getLast?_cons] at hjoins
      cases hlast : (qs.map token).getLast? with
      | none => simpa [hlast] using hjoins
      | some t => simpa [hlast] using hjoins

/-! ## Reading -/

/-- The tokens that pieces are read as from a position on. -/
def read (width : Nat) : Position → List Piece → List Token
  | _, [] => []
  | position, p :: ps =>
      .readBehind width position p.token.kind p.gap p.copy
        :: read width (position.behind width p.gap p.copy) ps

/-- Each piece is read as a token with its kind, gap and copy, at the column that the pieces before
it lead to. -/
theorem exists_getElem?_read (width : Nat) (position : Position) {n : Nat} (h : ps[n]? = some p) :
    ∃ position' : Position,
      position'.column = (position.advance width ((ps.take n).flatMap glyphs)).column ∧
        (read width position ps)[n]?
          = some (.readBehind width position' p.token.kind p.gap p.copy) := by
  induction n generalizing position ps with
  | zero =>
      obtain ⟨rest, rfl⟩ : ∃ rest, ps = p :: rest := by
        cases ps with
        | nil => cases h
        | cons q rest =>
            cases h
            exact ⟨rest, rfl⟩
      exact ⟨position, rfl, rfl⟩
  | succ n ih =>
      cases ps with
      | nil => cases h
      | cons q rest =>
          obtain ⟨position', hcolumn, hread⟩ :
              ∃ position' : Position,
                position'.column = ((position.behind width q.gap q.copy).advance
                  width ((rest.take n).flatMap glyphs)).column ∧
                (read width (position.behind width q.gap q.copy) rest)[n]?
                  = some (.readBehind width position' p.token.kind p.gap p.copy) := ih _ h
          refine ⟨position', ?_, hread⟩
          have hbehind : (position.behind width q.gap q.copy).column
              = ((position.advance width q.gap).advance width q.copy).column := rfl
          rw [hcolumn, List.take_succ_cons, List.flatMap_cons, glyphs, Position.advance_append,
            Position.advance_append]
          exact Position.column_advance_congr hbehind _

theorem length_read (width : Nat) (position : Position) (ps : List Piece) :
    (read width position ps).length = ps.length := by
  induction ps generalizing position with
  | nil => rfl
  | cons p ps ih => rw [read, List.length_cons, List.length_cons, ih]

end Piece

theorem gapBreaks_replicate (e : LineEnd) (n : Nat) (cs : List Char) :
    gapBreaks (List.replicate n (.lineBreak e) ++ cs.map .char) = n ∧
      gapSpace (List.replicate n (.lineBreak e) ++ cs.map .char) = cs := by
  have hlines : ∀ n, linesOf (List.replicate n (.lineBreak e) ++ cs.map .char)
      = if n = 0 then (cs, []) else ([], List.replicate (n - 1) [] ++ [cs]) := by
    intro n
    induction n with
    | zero =>
        have hchars := linesOf_chars cs []
        rw [List.append_nil] at hchars
        simpa [linesOf] using hchars
    | succ n ih =>
        rw [List.replicate_succ, List.cons_append, linesOf, ih]
        cases n with
        | zero => rfl
        | succ n => rfl
  rw [gapBreaks, gapSpace, hlines]
  split
  · next hzero => exact ⟨hzero.symm, rfl⟩
  · next hzero =>
    constructor
    · simp
      omega
    · simp

/-- Pieces for the tokens of a source, and behind them as many line breaks as in the source, are
read as they are written. -/
theorem Partition.readTokens_pieces {language : Language} {e : LineEnd} {source : List Glyph}
    {ps : List Piece} {trailing : Nat} {prev : Option Token}
    (hsource : Partition language source (ps.map Piece.token) trailing)
    (hplain : Plain .linux source) (hts : ∀ p ∈ ps, p.token.Settled language)
    (h : Piece.Chain e prev ps) (width : Nat) (position : Position)
    (hprev : prev = none → position.atLineStart = true) :
    (readTokens language width position
        (ps.flatMap Piece.glyphs ++ List.replicate trailing (.lineBreak e))).tokens
        = Piece.read width position ps ∧
      (readTokens language width position
        (ps.flatMap Piece.glyphs ++ List.replicate trailing (.lineBreak e))).trailingBreaks
        = trailing := by
  induction h generalizing source position with
  | nil =>
      rw [List.flatMap_nil, List.nil_append]
      refine ⟨readTokens_gap isGap_of_mem_breaks, ?_⟩
      have hbreaks := (gapBreaks_replicate e trailing []).1
      rw [List.map_nil, List.append_nil] at hbreaks
      have hgap : splitGap (List.replicate trailing (.lineBreak e)) = (_, none) :=
        splitGap_of_isGap isGap_of_mem_breaks
      rw [readTokens]
      split
      · rw [hgap]
        exact hbreaks
      · next hsplit =>
        rw [hgap] at hsplit
        cases hsplit
  | @cons prev p ps hjoins hcopy hchain ih =>
      rw [List.map_cons, ← List.append_nil (ps.map Piece.token)] at hsource
      have hspells := hchain.spells
      obtain ⟨hread, -, rest, hothers, hrest⟩ := hsource.readTokens_copy hplain
        (fun u hu => by
          rw [← List.map_cons] at hu
          obtain ⟨q, hq, rfl⟩ := List.mem_map.mp hu
          exact hts q hq)
        hjoins hcopy hspells (.inl ⟨rfl, rfl⟩) width hprev
      rw [List.append_nil] at hothers
      have hps : ∀ q ∈ ps, q.token.Settled language := fun q hq => hts q (List.mem_cons_of_mem _ hq)
      rw [List.flatMap_cons, Piece.glyphs, List.append_assoc, List.append_assoc, hread, Piece.read]
      exact ⟨congrArg _ (ih hothers hrest hps _ nofun).1, (ih hothers hrest hps _ nofun).2⟩

/-! ## The line ending -/

/-- Where all line breaks of a source are alike, the first of them is one of these. -/
theorem lineEnd_readTokens (language : Language) (width : Nat) {position : Position}
    {source : List Glyph} (hplain : Plain .linux source)
    (hposition : ∀ e ∈ position.lineEnd, e = .linux) :
    ∀ e ∈ (readTokens language width position source).lineEnd, e = .linux := by
  have hadvance : ∀ {gs : List Glyph} {p : Position}, Plain .linux gs →
      (∀ e ∈ p.lineEnd, e = .linux) → ∀ e ∈ (p.advance width gs).lineEnd, e = .linux := by
    intro gs p hgs hp
    induction gs generalizing p with
    | nil => exact hp
    | cons g gs ih =>
        obtain ⟨hg, hgs⟩ := plain_cons.mp hgs
        refine ih hgs ?_
        cases g with
        | char => exact hp
        | lineBreak e =>
            intro e' he'
            cases hline : p.lineEnd with
            | none =>
                have heq : e = e' := by simpa [Position.step, hline] using he'
                exact heq ▸ hg (.lineBreak e) List.mem_cons_self
            | some e'' =>
                have heq : e'' = e' := by simpa [Position.step, hline] using he'
                exact heq ▸ hp e'' hline
  fun_induction readTokens language width position source with
  | case1 position source gap start hsplit =>
      have hgap : gap = source := splitGap_none hsplit
      exact hadvance (hgap ▸ hplain) hposition
  | case2 position source gap start first rest hsplit scanned taken token behind others ih =>
      have hsource := (splitGap_some hsplit).1
      rw [← hsource] at hplain
      obtain ⟨hgap, hbehind⟩ := plain_append.mp hplain
      have hcut : scanned.2.taken ++ scanned.2.rest = rest :=
        (Scanner.reads_scan language start.atLineStart first rest).source_eq
          fun e he => (plain_cons.mp hbehind).2 _ he
      rw [← hcut, ← List.cons_append] at hbehind
      obtain ⟨htaken, hrest⟩ := plain_append.mp hbehind
      exact ih hrest (hadvance htaken (hadvance hgap hposition))

end Beautifier
