/-
What a transform answers.

`Answers` lists the answers without an order of checks, each with what must
hold of the source, the options and the allocator for it: one report and no
output, or an output and no report.  The conditions exclude each other and
one of them always holds, so the transform gives that answer and no other
(`answers_iff`).
-/
import Beautifier.Proofs.Text.Utf8
import Beautifier.Transform.Entry

namespace Beautifier

/-- A request for `size` bytes is answered with that many or more. -/
def Allocator.Gives (allocator : Allocator) (size : Nat) : Prop :=
  ∃ block, allocator size = some block ∧ size ≤ block.length

/-- The directives of an options text that mean nothing, as they are reported, in order. -/
def rejectedOf (text : String) : List String := rejections ((directives text).map readDirective)

/-- The bytes of a source formatted, and a NUL. -/
def outputBytes (o : Options) (text : String) : List UInt8 := Utf8.encode (format o text) ++ [0]

/-- An answer to a transform. -/
inductive Answers (source options : List UInt8) (allocator : Allocator) : Outcome → Prop
  /-- The source is not UTF-8, whatever the options and the allocator are. -/
  | input {offset : Nat} (hsource : Utf8.ValidUpTo source offset) :
      Answers source options allocator
        ⟨none, [⟨140, "Source input is not valid UTF-8 (byte offset " ++ toString offset ++ ")."⟩],
          []⟩
  /-- Directives are refused.  The report lists all of them. -/
  | options {rejected : List String} (hsource : Utf8.Valid source)
      (hoptions : rejectedOf (Utf8.decodeLossy options) = rejected) (hrejected : rejected ≠ []) :
      Answers source options allocator
        ⟨none, [⟨130, "\n\t".intercalate ("Invalid Artistic Style options:" :: rejected)⟩], []⟩
  /-- There is no memory, or too little. -/
  | allocation {text : String} {o : Options} (hsource : Utf8.encode text = source)
      (hoptions : parseOptions (Utf8.decodeLossy options) = .ok o)
      (hmemory : ¬allocator.Gives (outputBytes o text).length) :
      Answers source options allocator
        ⟨none, [⟨120, "Allocation failure on output."⟩], [(outputBytes o text).length]⟩
  /-- The text and a NUL stand at the start of the memory, the rest of it is as it was. -/
  | output {text : String} {o : Options} {block : List UInt8} {b : Buffer}
      (hsource : Utf8.encode text = source)
      (hoptions : parseOptions (Utf8.decodeLossy options) = .ok o)
      (hmemory : allocator (outputBytes o text).length = some block)
      (hroom : (outputBytes o text).length ≤ block.length)
      (hbytes : b.bytesWithNul = outputBytes o text)
      (hrest : b.block.drop (b.length + 1) = block.drop (b.length + 1))
      (hlength : b.length + 1 = (outputBytes o text).length) :
      Answers source options allocator ⟨some b, [], [(outputBytes o text).length]⟩

/-! ## The options -/

theorem foldl_eq_intercalate (separator first : String) (rest : List String) :
    rest.foldl (fun text s => text ++ separator ++ s) first =
      separator.intercalate (first :: rest) := by
  induction rest generalizing first with
  | nil => exact String.intercalate_singleton.symm
  | cons s rest ih =>
      rw [List.foldl_cons, ih, String.intercalate_cons_append, String.intercalate_cons_cons]

theorem OptionsError.message_eq (e : OptionsError) :
    e.message = "\n\t".intercalate ("Invalid Artistic Style options:" :: e.rejected) :=
  foldl_eq_intercalate _ _ _

theorem parseOptions_eq_error_iff {text : String} {e : OptionsError} :
    parseOptions text = .error e ↔ rejectedOf text = e.rejected ∧ e.rejected ≠ [] := by
  obtain ⟨rejected⟩ := e
  dsimp only [parseOptions, rejectedOf]
  cases rejections ((directives text).map readDirective) with
  | nil =>
      constructor
      · rintro ⟨⟩
      · rintro ⟨rfl, hne⟩
        exact absurd rfl hne
  | cons r rs =>
      constructor
      · rintro ⟨⟩
        exact ⟨rfl, List.cons_ne_nil r rs⟩
      · rintro ⟨rfl, -⟩
        rfl

/-! ## The memory -/

theorem Buffer.store?_eq_some_iff {text block : List UInt8} {b : Buffer} :
    store? text block = some b ↔
      text.length + 1 ≤ block.length ∧ b.bytesWithNul = text ++ [0] ∧
        b.block.drop (b.length + 1) = block.drop (b.length + 1) ∧ b.length = text.length := by
  constructor
  · intro h
    have hbytes := bytesWithNul_of_store? h
    unfold store? at h
    split at h
    · cases h
    next hroom =>
    cases h
    refine ⟨Nat.le_of_not_lt hroom, hbytes, ?_, rfl⟩
    simp [List.drop_append]
  · rintro ⟨hroom, hbytes, hrest, hlength⟩
    obtain ⟨bytes, length⟩ := b
    cases hlength
    have hblock : bytes = text ++ 0 :: block.drop (text.length + 1) := by
      rw [← List.take_append_drop (text.length + 1) bytes]
      exact (congrArg₂ _ hbytes hrest).trans (List.append_assoc _ _ _)
    rw [store?, if_neg (Nat.not_lt_of_le hroom), hblock]

/-! ## The transform -/

theorem length_outputBytes (o : Options) (text : String) :
    (outputBytes o text).length = (Utf8.encode (format o text)).length + 1 :=
  List.length_append

theorem answers_handOver {source options : List UInt8} {text : String} {o : Options}
    (hsource : Utf8.encode text = source)
    (hoptions : parseOptions (Utf8.decodeLossy options) = .ok o) (allocator : Allocator) :
    Answers source options allocator (handOver allocator (format o text)) := by
  have hlength := length_outputBytes o text
  unfold handOver
  simp only [← hlength]
  cases hbind : (allocator (outputBytes o text).length).bind
      (Buffer.store? (Utf8.encode (format o text))) with
  | none =>
      refine .allocation hsource hoptions ?_
      rintro ⟨block, hblock, hroom⟩
      rw [hblock, Option.bind_some, Buffer.store?, if_neg (by omega)] at hbind
      cases hbind
  | some b =>
      obtain ⟨block, hblock, hstore⟩ := Option.bind_eq_some_iff.mp hbind
      obtain ⟨hroom, hbytes, hrest, hb⟩ := Buffer.store?_eq_some_iff.mp hstore
      exact .output hsource hoptions hblock (hlength ▸ hroom) hbytes hrest (hb ▸ hlength.symm)

theorem answers_transform (source options : List UInt8) (allocator : Allocator) :
    Answers source options allocator (transform source options allocator) := by
  unfold transform formatBytes
  cases hdecode : Utf8.decode source with
  | error offset => exact .input (Utf8.decode_eq_error_iff.mp hdecode)
  | ok text =>
      have hsource := Utf8.decode_eq_ok_iff.mp hdecode
      cases hparse : parseOptions (Utf8.decodeLossy options) with
      | error e =>
          obtain ⟨hrejected, hne⟩ := parseOptions_eq_error_iff.mp hparse
          show Answers source options allocator ⟨none, [⟨130, e.message⟩], []⟩
          rw [e.message_eq]
          exact .options ⟨text, hsource⟩ hrejected hne
      | ok o => exact answers_handOver hsource hparse allocator

theorem transform_eq {source options : List UInt8} {text : String} {o : Options}
    (hsource : Utf8.encode text = source)
    (hoptions : parseOptions (Utf8.decodeLossy options) = .ok o) (allocator : Allocator) :
    transform source options allocator = handOver allocator (format o text) := by
  rw [transform, formatBytes, Utf8.decode_eq_ok_iff.mpr hsource]
  dsimp only
  rw [hoptions]

theorem Answers.eq_transform {source options : List UInt8} {allocator : Allocator}
    {outcome : Outcome} (h : Answers source options allocator outcome) :
    outcome = transform source options allocator := by
  cases h with
  | input hsource =>
      rw [transform, formatBytes, Utf8.decode_eq_error_iff.mpr hsource]
      rfl
  | options hsource hoptions hrejected =>
      obtain ⟨text, htext⟩ := hsource
      rw [transform, formatBytes, Utf8.decode_eq_ok_iff.mpr htext]
      dsimp only
      rw [parseOptions_eq_error_iff.mpr ⟨hoptions, hrejected⟩, ← OptionsError.message_eq ⟨_⟩]
      rfl
  | @allocation text o hsource hoptions hmemory =>
      have hlength := length_outputBytes o text
      have hnone : (allocator (outputBytes o text).length).bind
          (Buffer.store? (Utf8.encode (format o text))) = none := by
        refine Option.bind_eq_none_iff.mpr fun block hblock => ?_
        rw [Buffer.store?, if_pos]
        exact Nat.lt_of_not_le fun hroom => hmemory ⟨block, hblock, by omega⟩
      rw [transform_eq hsource hoptions, handOver]
      simp only [← hlength, hnone]
      rfl
  | @output text o block b hsource hoptions hmemory hroom hbytes hrest hb =>
      have hlength := length_outputBytes o text
      have hsome : Buffer.store? (Utf8.encode (format o text)) block = some b :=
        Buffer.store?_eq_some_iff.mpr ⟨by omega, hbytes, hrest, by omega⟩
      rw [transform_eq hsource hoptions, handOver]
      simp only [← hlength, hmemory, Option.bind_some, hsome]

/-- A transform gives the one answer that the source, the options and the allocator allow. -/
theorem answers_iff (source options : List UInt8) (allocator : Allocator) (outcome : Outcome) :
    Answers source options allocator outcome ↔ outcome = transform source options allocator := by
  constructor
  · exact Answers.eq_transform
  · rintro rfl
    exact answers_transform source options allocator

end Beautifier
