/-
Strict reading of UTF-8.

The reader goes by the lead byte of a piece, the encoder by the size of a
character.  Both say the same: a piece is a character exactly where the bytes
of that character stand (`piece_eq_scalar_iff`).  The reading of a whole
sequence follows piece by piece: what is read is what was encoded
(`decode_eq_ok_iff`), and reading fails at the end of the longest part in
front that is UTF-8 (`decode_eq_error_iff`).
-/
import Mathlib.Order.Bounds.Basic
import Mathlib.Tactic.SplitIfs
import Beautifier.Text.Utf8

namespace Beautifier.Utf8

open String (utf8EncodeChar)

/-! ## The bytes of a character -/

theorem toNat_lt (c : Char) : c.toNat < 0xD800 ∨ 0xDFFF < c.toNat ∧ c.toNat < 0x110000 :=
  c.valid

theorem toNat_ofNat {n : Nat} (h : n < 0xD800 ∨ 0xDFFF < n ∧ n < 0x110000) :
    (Char.ofNat n).toNat = n := by
  rw [Char.ofNat, dif_pos h]
  rfl

theorem toNat_byte {n : Nat} (h : n < 256) : (UInt8.ofNat n).toNat = n :=
  UInt8.toNat_ofNat_of_lt' h

/-- The bytes of a character by its number, six bits in each byte behind the first. -/
theorem utf8EncodeChar_eq (c : Char) :
    utf8EncodeChar c =
      if c.toNat < 0x80 then [.ofNat c.toNat]
      else if c.toNat < 0x800 then
        [.ofNat (c.toNat / 64 + 0xC0), .ofNat (c.toNat % 64 + 0x80)]
      else if c.toNat < 0x10000 then
        [.ofNat (c.toNat / 4096 + 0xE0), .ofNat (c.toNat / 64 % 64 + 0x80),
          .ofNat (c.toNat % 64 + 0x80)]
      else
        [.ofNat (c.toNat / 262144 + 0xF0), .ofNat (c.toNat / 4096 % 64 + 0x80),
          .ofNat (c.toNat / 64 % 64 + 0x80), .ofNat (c.toNat % 64 + 0x80)] := by
  have hlt := toNat_lt c
  have hval : c.val.toNat = c.toNat := rfl
  simp only [utf8EncodeChar, hval]
  split
  · rw [if_pos (by omega)]
  split
  · rw [if_neg (by omega), if_pos (by omega), Nat.mod_eq_of_lt (by omega)]
  split
  · rw [if_neg (by omega), if_neg (by omega), if_pos (by omega), Nat.mod_eq_of_lt (by omega)]
  · rw [if_neg (by omega), if_neg (by omega), if_neg (by omega), Nat.mod_eq_of_lt (by omega)]

/-! ## Lead bytes -/

/-- A lead byte and what it asks for. -/
inductive Leads (lead : UInt8) : Tail → Prop
  | two (low : 0xC2 ≤ lead.toNat) (high : lead.toNat ≤ 0xDF) : Leads lead ⟨1, 0x80, 0xBF⟩
  /-- Less than `0xA0` behind `0xE0` would do with two bytes, more than `0x9F` behind `0xED`
  would be a surrogate. -/
  | three (low : 0xE0 ≤ lead.toNat) (high : lead.toNat ≤ 0xEF) :
      Leads lead ⟨2, if lead.toNat = 0xE0 then 0xA0 else 0x80,
        if lead.toNat = 0xED then 0x9F else 0xBF⟩
  /-- Less than `0x90` behind `0xF0` would do with three bytes, more than `0x8F` behind `0xF4`
  would be no code point. -/
  | four (low : 0xF0 ≤ lead.toNat) (high : lead.toNat ≤ 0xF4) :
      Leads lead ⟨3, if lead.toNat = 0xF0 then 0x90 else 0x80,
        if lead.toNat = 0xF4 then 0x8F else 0xBF⟩

variable {lead : UInt8} {rest more : List UInt8} {c : Char} {width : Nat}

theorem tailOf_eq (lead : UInt8) :
    tailOf lead =
      if 0xC2 ≤ lead.toNat ∧ lead.toNat ≤ 0xDF then some ⟨1, 0x80, 0xBF⟩
      else if lead.toNat = 0xE0 then some ⟨2, 0xA0, 0xBF⟩
      else if lead.toNat = 0xED then some ⟨2, 0x80, 0x9F⟩
      else if 0xE1 ≤ lead.toNat ∧ lead.toNat ≤ 0xEF then some ⟨2, 0x80, 0xBF⟩
      else if lead.toNat = 0xF0 then some ⟨3, 0x90, 0xBF⟩
      else if 0xF1 ≤ lead.toNat ∧ lead.toNat ≤ 0xF3 then some ⟨3, 0x80, 0xBF⟩
      else if lead.toNat = 0xF4 then some ⟨3, 0x80, 0x8F⟩
      else none := by
  simp only [tailOf, Bool.and_eq_true, decide_eq_true_eq, beq_iff_eq, UInt8.le_iff_toNat_le,
    ← UInt8.toNat_inj, UInt8.reduceToNat]

theorem tailOf_eq_some_iff {t : Tail} : tailOf lead = some t ↔ Leads lead t := by
  rw [tailOf_eq]
  constructor
  · intro h
    split_ifs at h <;> cases h
    · exact .two (by omega) (by omega)
    · have three : Leads lead _ := .three (by omega) (by omega)
      rwa [if_pos (by omega), if_neg (by omega)] at three
    · have three : Leads lead _ := .three (by omega) (by omega)
      rwa [if_neg (by omega), if_pos (by omega)] at three
    · have three : Leads lead _ := .three (by omega) (by omega)
      rwa [if_neg (by omega), if_neg (by omega)] at three
    · have four : Leads lead _ := .four (by omega) (by omega)
      rwa [if_pos (by omega), if_neg (by omega)] at four
    · have four : Leads lead _ := .four (by omega) (by omega)
      rwa [if_neg (by omega), if_neg (by omega)] at four
    · have four : Leads lead _ := .four (by omega) (by omega)
      rwa [if_neg (by omega), if_pos (by omega)] at four
  · rintro (⟨low, high⟩ | ⟨low, high⟩ | ⟨low, high⟩)
    · rw [if_pos ⟨low, high⟩]
    · split_ifs <;> first | rfl | omega
    · split_ifs <;> first | rfl | omega

/-! ## One piece -/

theorem continuation_succ {value count : Nat} {low high b : UInt8}
    (hlow : low.toNat ≤ b.toNat) (hhigh : b.toNat ≤ high.toNat) :
    continuation value width (count + 1) low high (b :: rest) =
      continuation (value * 64 + b.toNat % 64) (width + 1) count 0x80 0xBF rest := by
  rw [continuation, if_pos]
  simpa [UInt8.le_iff_toNat_le] using ⟨hlow, hhigh⟩

theorem of_continuation_succ {value width' count : Nat} {low high : UInt8}
    (h : continuation value width (count + 1) low high rest = .scalar c width') :
    ∃ b more, rest = b :: more ∧ low.toNat ≤ b.toNat ∧ b.toNat ≤ high.toNat ∧
      continuation (value * 64 + b.toNat % 64) (width + 1) count 0x80 0xBF more =
        .scalar c width' := by
  cases rest with
  | nil => cases h
  | cons b more =>
      rw [continuation] at h
      split at h
      · next hb =>
        simp only [Bool.and_eq_true, decide_eq_true_eq, UInt8.le_iff_toNat_le] at hb
        exact ⟨b, more, rfl, hb.1, hb.2, h⟩
      · cases h

theorem toNat_ite (p : Prop) [Decidable p] (a b : UInt8) :
    p ∧ (if p then a else b).toNat = a.toNat ∨ ¬p ∧ (if p then a else b).toNat = b.toNat := by
  split
  · next h => exact .inl ⟨h, rfl⟩
  · next h => exact .inr ⟨h, rfl⟩

theorem byte_cons {b : UInt8} {n : Nat} {bs cs : List UInt8} (hb : b.toNat = n) (hbs : bs = cs) :
    b :: bs = .ofNat n :: cs := by
  rw [← hb, hbs, UInt8.ofNat_toNat]

theorem of_piece_eq_scalar (h : piece lead rest = .scalar c width) :
    ∃ more, lead :: rest = utf8EncodeChar c ++ more ∧ width = c.utf8Size := by
  simp only [← String.length_utf8EncodeChar, utf8EncodeChar_eq]
  unfold piece at h
  split at h
  · next hlead =>
    simp only [UInt8.lt_iff_toNat_lt, UInt8.reduceToNat] at hlead
    cases h
    refine ⟨rest, ?_⟩
    rw [toNat_ofNat (by omega), if_pos hlead]
    exact ⟨byte_cons rfl rfl, rfl⟩
  split at h
  · cases h
  next t ht =>
  cases tailOf_eq_some_iff.mp ht with
  | two low high =>
    obtain ⟨b, more, rfl, hlow, hhigh, h⟩ := of_continuation_succ h
    simp only [leadBits, Nat.reduceShiftRight, UInt8.reduceToNat] at hlow hhigh h
    cases h
    refine ⟨more, ?_⟩
    rw [toNat_ofNat (by omega), if_neg (by omega), if_pos (by omega)]
    exact ⟨byte_cons (by omega) (byte_cons (by omega) rfl), rfl⟩
  | three low high =>
    have hfirst := toNat_ite (lead.toNat = 0xE0) 0xA0 0x80
    have hlast := toNat_ite (lead.toNat = 0xED) 0x9F 0xBF
    obtain ⟨b, more, rfl, hlow, hhigh, h⟩ := of_continuation_succ h
    obtain ⟨b', more, rfl, hlow', hhigh', h⟩ := of_continuation_succ h
    simp only [leadBits, Nat.reduceShiftRight, UInt8.reduceToNat]
      at hfirst hlast hlow hhigh hlow' hhigh' h
    cases h
    refine ⟨more, ?_⟩
    rw [toNat_ofNat (by omega), if_neg (by omega), if_neg (by omega), if_pos (by omega)]
    exact ⟨byte_cons (by omega) (byte_cons (by omega) (byte_cons (by omega) rfl)), rfl⟩
  | four low high =>
    have hfirst := toNat_ite (lead.toNat = 0xF0) 0x90 0x80
    have hlast := toNat_ite (lead.toNat = 0xF4) 0x8F 0xBF
    obtain ⟨b, more, rfl, hlow, hhigh, h⟩ := of_continuation_succ h
    obtain ⟨b', more, rfl, hlow', hhigh', h⟩ := of_continuation_succ h
    obtain ⟨b'', more, rfl, hlow'', hhigh'', h⟩ := of_continuation_succ h
    simp only [leadBits, Nat.reduceShiftRight, UInt8.reduceToNat]
      at hfirst hlast hlow hhigh hlow' hhigh' hlow'' hhigh'' h
    cases h
    refine ⟨more, ?_⟩
    rw [toNat_ofNat (by omega), if_neg (by omega), if_neg (by omega), if_neg (by omega)]
    exact ⟨byte_cons (by omega)
      (byte_cons (by omega) (byte_cons (by omega) (byte_cons (by omega) rfl))), rfl⟩

theorem piece_of_leads {t : Tail} (h : Leads lead t) :
    piece lead rest = continuation (leadBits t.count lead) 1 t.count t.low t.high rest := by
  have hlead : ¬lead < 0x80 := by
    simp only [UInt8.lt_iff_toNat_lt, UInt8.reduceToNat]
    cases h <;> omega
  rw [piece, if_neg hlead, tailOf_eq_some_iff.mpr h]

theorem piece_one (hlead : lead.toNat = c.toNat) (hhigh : c.toNat < 0x80) :
    piece lead rest = .scalar c 1 := by
  rw [piece, if_pos, hlead, Char.ofNat_toNat]
  simpa only [UInt8.lt_iff_toNat_lt, hlead, UInt8.reduceToNat] using hhigh

theorem piece_two {b : UInt8} (hlead : lead.toNat = c.toNat / 64 + 0xC0)
    (hb : b.toNat = c.toNat % 64 + 0x80) (hlow : 0x80 ≤ c.toNat) (hhigh : c.toNat < 0x800) :
    piece lead (b :: rest) = .scalar c 2 := by
  rw [piece_of_leads (.two (by omega) (by omega)), continuation_succ, continuation]
  all_goals simp only [leadBits, Nat.reduceShiftRight, UInt8.reduceToNat]
  · refine congrArg (Piece.scalar · 2) ((congrArg Char.ofNat ?_).trans c.ofNat_toNat)
    omega
  all_goals omega

theorem piece_three {b b' : UInt8} (hlead : lead.toNat = c.toNat / 4096 + 0xE0)
    (hb : b.toNat = c.toNat / 64 % 64 + 0x80) (hb' : b'.toNat = c.toNat % 64 + 0x80)
    (hlow : 0x800 ≤ c.toNat) (hhigh : c.toNat < 0x10000) :
    piece lead (b :: b' :: rest) = .scalar c 3 := by
  have hc := toNat_lt c
  have hfirst := toNat_ite (lead.toNat = 0xE0) 0xA0 0x80
  have hlast := toNat_ite (lead.toNat = 0xED) 0x9F 0xBF
  simp only [UInt8.reduceToNat] at hfirst hlast
  rw [piece_of_leads (.three (by omega) (by omega)), continuation_succ, continuation_succ,
    continuation]
  all_goals simp only [leadBits, Nat.reduceShiftRight, UInt8.reduceToNat]
  · refine congrArg (Piece.scalar · 3) ((congrArg Char.ofNat ?_).trans c.ofNat_toNat)
    omega
  all_goals omega

theorem piece_four {b b' b'' : UInt8} (hlead : lead.toNat = c.toNat / 262144 + 0xF0)
    (hb : b.toNat = c.toNat / 4096 % 64 + 0x80) (hb' : b'.toNat = c.toNat / 64 % 64 + 0x80)
    (hb'' : b''.toNat = c.toNat % 64 + 0x80) (hlow : 0x10000 ≤ c.toNat) :
    piece lead (b :: b' :: b'' :: rest) = .scalar c 4 := by
  have hc := toNat_lt c
  have hfirst := toNat_ite (lead.toNat = 0xF0) 0x90 0x80
  have hlast := toNat_ite (lead.toNat = 0xF4) 0x8F 0xBF
  simp only [UInt8.reduceToNat] at hfirst hlast
  rw [piece_of_leads (.four (by omega) (by omega)), continuation_succ, continuation_succ,
    continuation_succ, continuation]
  all_goals simp only [leadBits, Nat.reduceShiftRight, UInt8.reduceToNat]
  · refine congrArg (Piece.scalar · 4) ((congrArg Char.ofNat ?_).trans c.ofNat_toNat)
    omega
  all_goals omega

theorem piece_utf8EncodeChar (h : lead :: rest = utf8EncodeChar c ++ more) :
    piece lead rest = .scalar c c.utf8Size := by
  have hc := toNat_lt c
  rw [← String.length_utf8EncodeChar]
  rw [utf8EncodeChar_eq] at h ⊢
  split_ifs at h ⊢ with hone htwo hthree
  · obtain ⟨rfl, rfl⟩ := List.cons.inj h
    exact piece_one (toNat_byte (by omega)) hone
  · obtain ⟨rfl, rfl⟩ := List.cons.inj h
    exact piece_two (toNat_byte (by omega)) (toNat_byte (by omega)) (by omega) htwo
  · obtain ⟨rfl, rfl⟩ := List.cons.inj h
    exact piece_three (toNat_byte (by omega)) (toNat_byte (by omega)) (toNat_byte (by omega))
      (by omega) hthree
  · obtain ⟨rfl, rfl⟩ := List.cons.inj h
    exact piece_four (toNat_byte (by omega)) (toNat_byte (by omega)) (toNat_byte (by omega))
      (toNat_byte (by omega)) (by omega)

theorem piece_eq_scalar_iff :
    piece lead rest = .scalar c width ↔
      ∃ more, lead :: rest = utf8EncodeChar c ++ more ∧ width = c.utf8Size := by
  constructor
  · exact of_piece_eq_scalar
  · rintro ⟨more, h, rfl⟩
    exact piece_utf8EncodeChar h

/-! ## A sequence -/

def scalarOf (c : Char) : Piece := .scalar c c.utf8Size

theorem toList_loop_eq (bytes : ByteArray) (i : Nat) (before : List UInt8) :
    ByteArray.toList.loop bytes i before = before.reverse ++ bytes.data.toList.drop i := by
  fun_induction ByteArray.toList.loop bytes i before with
  | case1 i before hi ih =>
      have hlt : i < bytes.data.toList.length := hi
      have hget : bytes.get! i = bytes.data.toList[i] := getElem!_pos bytes.data i hi
      rw [ih, List.drop_eq_getElem_cons hlt, hget, List.reverse_cons, List.append_assoc]
      rfl
  | case2 i before hi =>
      have hle : bytes.data.toList.length ≤ i := Nat.le_of_not_lt hi
      rw [List.drop_eq_nil_of_le hle, List.append_nil]

theorem encode_eq (text : String) : encode text = text.toList.flatMap utf8EncodeChar := by
  rw [encode, String.toUTF8, ← String.utf8Encode_toList, List.utf8Encode, ByteArray.toList,
    toList_loop_eq, List.toList_data_toByteArray]
  rfl

theorem piecesFrom_eq (skip : Nat) (bytes : List UInt8) :
    piecesFrom skip bytes = pieces (bytes.drop skip) := by
  induction skip generalizing bytes with
  | zero => rfl
  | succ skip ih =>
      cases bytes with
      | nil => rfl
      | cons b rest => exact ih rest

theorem pieces_cons (b : UInt8) (rest : List UInt8) :
    pieces (b :: rest) = piece b rest :: pieces (rest.drop ((piece b rest).width - 1)) := by
  rw [pieces, piecesFrom, piecesFrom_eq]

theorem pieces_utf8EncodeChar_append (c : Char) (more : List UInt8) :
    pieces (utf8EncodeChar c ++ more) = scalarOf c :: pieces more := by
  obtain ⟨b, rest, hb⟩ := List.exists_cons_of_ne_nil (String.utf8EncodeChar_ne_nil (c := c))
  have hlength := String.length_utf8EncodeChar c
  have hpiece : piece b (rest ++ more) = scalarOf c :=
    piece_eq_scalar_iff.mpr ⟨more, by rw [hb]; rfl, rfl⟩
  rw [hb, List.length_cons] at hlength
  rw [hb, List.cons_append, pieces_cons, hpiece]
  show _ :: pieces ((rest ++ more).drop (c.utf8Size - 1)) = _
  rw [← hlength, Nat.add_sub_cancel, List.drop_left]

theorem pieces_flatMap_append (cs : List Char) (more : List UInt8) :
    pieces (cs.flatMap utf8EncodeChar ++ more) = cs.map scalarOf ++ pieces more := by
  induction cs with
  | nil => rfl
  | cons c cs ih =>
      rw [List.flatMap_cons, List.append_assoc, pieces_utf8EncodeChar_append, ih]
      rfl

/-- Every sequence is characters, and behind them nothing or an invalid part. -/
theorem exists_chars (bytes : List UInt8) :
    ∃ (cs : List Char) (more : List UInt8), bytes = cs.flatMap utf8EncodeChar ++ more ∧
      (more = [] ∨ ∃ width ps, pieces more = .broken width :: ps) := by
  induction hn : bytes.length using Nat.strongRecOn generalizing bytes with
  | ind n ih =>
      cases bytes with
      | nil => exact ⟨[], [], rfl, .inl rfl⟩
      | cons b rest =>
          cases hp : piece b rest with
          | broken width => exact ⟨[], b :: rest, rfl, .inr ⟨width, _, by rw [pieces_cons, hp]⟩⟩
          | scalar c width =>
              obtain ⟨more, hmore, -⟩ := piece_eq_scalar_iff.mp hp
              have hlt : more.length < n := by
                rw [← hn, hmore, List.length_append, String.length_utf8EncodeChar]
                have := c.utf8Size_pos
                omega
              obtain ⟨cs, more', rfl, hend⟩ := ih more.length hlt more rfl
              exact ⟨c :: cs, more', by rw [hmore, List.flatMap_cons, List.append_assoc], hend⟩

theorem strict_map_append (offset : Nat) (cs : List Char) (ps : List Piece) :
    strict offset (cs.map scalarOf ++ ps) =
      (strict (offset + (cs.flatMap utf8EncodeChar).length) ps).map (cs ++ ·) := by
  induction cs generalizing offset with
  | nil =>
      show strict offset ps = (strict offset ps).map id
      cases strict offset ps <;> rfl
  | cons c cs ih =>
      show (strict (offset + c.utf8Size) (cs.map scalarOf ++ ps)).map (c :: ·) = _
      rw [ih, List.flatMap_cons, List.length_append, String.length_utf8EncodeChar, Nat.add_assoc]
      cases strict (offset + (c.utf8Size + (cs.flatMap utf8EncodeChar).length)) ps <;> rfl

theorem decode_encode (text : String) : decode (encode text) = .ok text := by
  rw [decode, encode_eq, ← List.append_nil (text.toList.flatMap _), pieces_flatMap_append,
    strict_map_append]
  show Except.ok (String.ofList (text.toList ++ [])) = _
  rw [List.append_nil, String.ofList_toList]

theorem decodeLossy_encode (text : String) : decodeLossy (encode text) = text := by
  have hlenient : Piece.lenient ∘ scalarOf = id := rfl
  rw [decodeLossy, encode_eq, ← List.append_nil (text.toList.flatMap _), pieces_flatMap_append,
    List.map_append, List.map_map, hlenient, List.map_id]
  show String.ofList (text.toList ++ []) = _
  rw [List.append_nil, String.ofList_toList]

/-- Reading does not fail before the byte it starts at. -/
theorem le_of_strict_eq_error {offset n : Nat} {ps : List Piece}
    (h : strict offset ps = .error n) : offset ≤ n := by
  induction ps generalizing offset with
  | nil => cases h
  | cons p ps ih =>
      cases p with
      | broken width =>
          cases h
          exact Nat.le_refl _
      | scalar c width =>
          cases hrest : strict (offset + width) ps with
          | error k =>
              simp only [strict, hrest] at h
              cases h
              exact Nat.le_of_add_right_le (ih hrest)
          | ok cs =>
              simp only [strict, hrest] at h
              cases h

/-! ## Where reading fails -/

/-- The bytes of some text. -/
def Valid (bytes : List UInt8) : Prop := ∃ text, encode text = bytes

/-- The longest part in front that is UTF-8 ends at `offset`, and it is not all. -/
def ValidUpTo (bytes : List UInt8) (offset : Nat) : Prop :=
  offset < bytes.length ∧ IsGreatest {n | n ≤ bytes.length ∧ Valid (bytes.take n)} offset

theorem le_of_valid_take {bytes : List UInt8} {n offset : Nat} (hn : n ≤ bytes.length)
    (hvalid : Valid (bytes.take n)) (h : decode bytes = .error offset) : n ≤ offset := by
  obtain ⟨text, htext⟩ := hvalid
  rw [encode_eq] at htext
  have hlength : (text.toList.flatMap utf8EncodeChar).length = n := by
    rw [htext, List.length_take, Nat.min_eq_left hn]
  rw [← List.take_append_drop n bytes, ← htext, decode, pieces_flatMap_append, strict_map_append,
    hlength, Nat.zero_add] at h
  cases hrest : strict n (pieces (bytes.drop n)) with
  | error k =>
      rw [hrest] at h
      cases h
      exact le_of_strict_eq_error hrest
  | ok cs =>
      rw [hrest] at h
      cases h

/-- Every sequence is read, or reading fails behind its longest part in front that is UTF-8. -/
theorem decode_cases (bytes : List UInt8) :
    (∃ text, encode text = bytes) ∨
      ∃ offset, decode bytes = .error offset ∧ ValidUpTo bytes offset := by
  obtain ⟨cs, more, hbytes, rfl | ⟨width, ps, hmore⟩⟩ := exists_chars bytes
  · exact .inl ⟨.ofList cs, by rw [encode_eq, String.toList_ofList, hbytes, List.append_nil]⟩
  · have hdecode : decode bytes = .error (cs.flatMap utf8EncodeChar).length := by
      rw [decode, hbytes, pieces_flatMap_append, strict_map_append, hmore, Nat.zero_add]
      rfl
    have hne : more ≠ [] := by
      rintro rfl
      cases hmore
    have hpos := List.length_pos_iff.mpr hne
    have hlength : bytes.length = (cs.flatMap utf8EncodeChar).length + more.length := by
      rw [hbytes, List.length_append]
    refine .inr ⟨_, hdecode, by omega, ⟨by omega, .ofList cs, ?_⟩, ?_⟩
    · rw [encode_eq, String.toList_ofList, hbytes, List.take_left]
    · rintro n ⟨hn, hvalid⟩
      exact le_of_valid_take hn hvalid hdecode

theorem decode_eq_ok_iff {bytes : List UInt8} {text : String} :
    decode bytes = .ok text ↔ encode text = bytes := by
  constructor
  · intro h
    rcases decode_cases bytes with ⟨text', rfl⟩ | ⟨offset, herror, -⟩
    · rw [decode_encode] at h
      cases h
      rfl
    · rw [herror] at h
      cases h
  · rintro rfl
    exact decode_encode text

theorem ValidUpTo.not_valid {bytes : List UInt8} {offset : Nat} (h : ValidUpTo bytes offset) :
    ¬Valid bytes := by
  intro hvalid
  have hle := h.2.2 ⟨Nat.le_refl bytes.length, by rwa [List.take_length]⟩
  exact absurd hle (Nat.not_le_of_lt h.1)

theorem decode_eq_error_iff {bytes : List UInt8} {offset : Nat} :
    decode bytes = .error offset ↔ ValidUpTo bytes offset := by
  rcases decode_cases bytes with ⟨text, htext⟩ | ⟨n, hdecode, hn⟩
  · constructor
    · intro h
      rw [decode_eq_ok_iff.mpr htext] at h
      cases h
    · exact fun h => absurd ⟨text, htext⟩ h.not_valid
  · rw [hdecode]
    constructor
    · rintro ⟨⟩
      exact hn
    · exact fun h => congrArg _ (hn.2.unique h.2)

end Beautifier.Utf8
