/-
The entry points agree.

A transform, a call with a handler, a managed call, a wrapped transform and a
session come to the same result: one text, in each buffer as a whole however
the buffer is read, or one failure, with one code and message wherever it is
reported (`entries_agree`).  All of them are `formatBytes` underneath; what
lies between are the buffers, which a NUL would cut short, the reports, which
a NUL would empty, and the options that a session has read before.  A session
never holds what another text was read as (`Session.Read`).
-/
import Beautifier.Proofs.Transform.Terminator
import Beautifier.Transform.Session

namespace Beautifier

/-- What is asked for to hand over the result of formatting is given. -/
def Allocator.Works (allocator : Allocator) (source options : List UInt8) : Prop :=
  ∀ text, formatBytes source options = .ok text →
    allocator.Gives ((Utf8.encode text).length + 1)

/-- An outcome is that of a result: its text alone in the buffer, or its report alone. -/
inductive Outcome.Delivers : Outcome → Except Failure String → Prop
  | text {b : Buffer} {text : String} {requests : List Nat} (hbytes : b.bytes = Utf8.encode text)
      (hend : b.bytesWithNul = Utf8.encode text ++ [0]) : Delivers ⟨some b, [], requests⟩ (.ok text)
  | failure {f : Failure} {requests : List Nat} : Delivers ⟨none, [f.event], requests⟩ (.error f)

def resultBytes : Except Failure String → Option (List UInt8)
  | .ok text => some (Utf8.encode text)
  | .error _ => none

/-! ## Transforms and calls -/

section Outcome

variable {source options : List UInt8} {allocator : Allocator}

theorem delivers_transform (h : allocator.Works source options) :
    (transform source options allocator).Delivers (formatBytes source options) := by
  unfold transform
  cases hresult : formatBytes source options with
  | error f => exact .failure
  | ok text =>
      obtain ⟨block, hblock, hroom⟩ := h text hresult
      obtain ⟨b, hstore⟩ : ∃ b, Buffer.store? (Utf8.encode text) block = some b :=
        ⟨_, if_neg (Nat.not_lt_of_le hroom)⟩
      have hover : handOver allocator text = ⟨some b, [], [(Utf8.encode text).length + 1]⟩ := by
        simp only [handOver, hblock, Option.bind_some, hstore]
      dsimp only
      rw [hover]
      exact .text (Buffer.bytes_of_store? hstore) (Buffer.bytesWithNul_of_store? hstore)

theorem Event.heard_event {f : Failure} (h : '\x00' ∉ f.message.toList) :
    f.event.heard = f.event := by
  rw [Event.heard, if_neg]
  simpa [Failure.event] using h

theorem call_eq (hsource : 0 ∉ source) (hoptions : 0 ∉ options) (handler : Handler) :
    call (some source) (some options) handler (some allocator) =
      { transform source options allocator with
        events := handler.received (transform source options allocator).events } := by
  simp only [call, untilNul_eq hsource, untilNul_eq hoptions]

theorem delivers_call (h : allocator.Works source options) (hsource : 0 ∉ source)
    (hoptions : 0 ∉ options) :
    (call (some source) (some options) .caller (some allocator)).Delivers
      (formatBytes source options) := by
  rw [call_eq hsource hoptions]
  have hdelivers := delivers_transform h
  generalize transform source options allocator = outcome at hdelivers ⊢
  cases hresult : formatBytes source options with
  | ok text =>
      rw [hresult] at hdelivers
      cases hdelivers with
      | text hbytes hend => exact .text hbytes hend
  | error f =>
      rw [hresult] at hdelivers
      cases hdelivers with
      | failure =>
          have hheard := Event.heard_event (nul_not_mem_message hresult hoptions)
          show Outcome.Delivers ⟨none, [f.event.heard], _⟩ _
          rw [hheard]
          exact .failure

/-- A text without a NUL is read as a whole by one who stops at the first. -/
theorem Outcome.Delivers.cString {outcome : Outcome} {result : Except Failure String}
    (h : outcome.Delivers result) (hnul : ∀ text, result = .ok text → '\x00' ∉ text.toList) :
    outcome.output.map Buffer.cString = resultBytes result ∧
      outcome.output.map Buffer.bytes = resultBytes result := by
  cases h with
  | @text b text requests hbytes hend =>
      have hzero : 0 ∉ Utf8.encode text := fun h =>
        hnul text rfl (Utf8.zero_mem_encode_iff.mp h)
      refine ⟨congrArg some ?_, congrArg some hbytes⟩
      rw [Buffer.cString, hend, untilNul_append_nul hzero]
  | failure => exact ⟨rfl, rfl⟩

theorem nul_not_mem_formatBytes (hsource : 0 ∉ source) {text : String}
    (h : formatBytes source options = .ok text) : '\x00' ∉ text.toList := by
  unfold formatBytes at h
  split at h
  · cases h
  · next s hs =>
    split at h
    · cases h
    · cases h
      refine nul_not_mem_format (fun hnul => hsource ?_) _
      rw [← Utf8.decode_eq_ok_iff.mp hs]
      exact Utf8.zero_mem_encode_iff.mpr hnul

theorem works_exact (source options : List UInt8) : Allocator.exact.Works source options := by
  intro text _
  exact ⟨_, rfl, by simp⟩

end Outcome

/-! ## Sessions -/

namespace Session

/-- A session holds what its options text is read as. -/
def Read (s : Session) : Prop := s.parsed = parseOptions s.optionsText

theorem read_new : new.Read := rfl

theorem read_setOptions (s : Session) (text : String) : (s.setOptions text).Read := rfl

theorem read_withOptions (text : String) : (withOptions text).Read := rfl

/-- A source is formatted by a session as its bytes are under the bytes of the options text. -/
theorem Read.format_eq {s : Session} (h : s.Read) (source : String) :
    s.format source = formatBytes (Utf8.encode source) (Utf8.encode s.optionsText) := by
  rw [Session.format, h, formatBytes, Utf8.decode_encode, Utf8.decodeLossy_encode]
  cases parseOptions s.optionsText <;> rfl

/-- The answer to a request for a source to be formatted. -/
def Reply.ofResult : Except Failure String → Reply
  | .ok text => .formatted text
  | .error f => .failed f

/-- Neither the session in use nor the one put aside holds what another text was read as. -/
structure Desk.Read (d : Desk) : Prop where
  current : d.current.Read
  saved : d.saved.Read

theorem Desk.read_start : Desk.start.Read := ⟨read_new, read_new⟩

theorem Desk.Read.serve {d : Desk} (h : d.Read) (r : Request) : (d.serve r).1.Read := by
  cases r with
  | new => exact ⟨read_new, h.saved⟩
  | withOptions text => exact ⟨read_withOptions text, h.saved⟩
  | setOptions text => exact ⟨read_setOptions d.current text, h.saved⟩
  | save => exact ⟨h.current, h.current⟩
  | restore => exact ⟨h.saved, h.saved⟩
  | version => exact h
  | format source =>
      rw [Desk.serve]
      split <;> exact h

theorem Desk.serve_format (d : Desk) (source : String) :
    d.serve (.format source) = (d, .ofResult (d.current.format source)) := by
  rw [Desk.serve]
  cases d.current.format source <;> rfl

/-- Whatever has been asked for before, the last request is served at a desk that holds what its
options texts are read as. -/
theorem Desk.Read.serveAll_concat {d : Desk} (h : d.Read) (requests : List Request) (r : Request) :
    ∃ d' : Desk, d'.Read ∧ (d.serveAll (requests ++ [r])).getLast? = some (d'.serve r) := by
  induction requests generalizing d with
  | nil => exact ⟨d, h, rfl⟩
  | cons first rest ih =>
      obtain ⟨d', hd', hlast⟩ := ih (h.serve first)
      refine ⟨d', hd', ?_⟩
      rw [List.cons_append, Desk.serveAll]
      dsimp only
      rw [List.getLast?_cons, hlast]
      rfl

end Session

/-- The entry points agree.  Where the allocators work, a source and options without a NUL are
formatted by all of them to one text, in the buffers as a whole also where the first NUL ends it, or
fail by all of them for one reason, reported by a transform and by a call.  Whatever a session has
been asked for before, a source that is formatted by it comes to what a transform under its options
text comes to. -/
theorem entries_agree :
    (∀ source options : List UInt8, 0 ∉ source → 0 ∉ options →
      ∀ allocator callAllocator : Allocator, allocator.Works source options →
        callAllocator.Works source options → Allocator.managed.Works source options →
      ∃ result : Except Failure String,
        (transform source options allocator).Delivers result ∧
        (transform source options allocator).output.map Buffer.cString = resultBytes result ∧
        (call (some source) (some options) .caller (some callAllocator)).Delivers result ∧
        (call (some source) (some options) .caller (some callAllocator)).output.map Buffer.cString =
          resultBytes result ∧
        callManaged (some source) (some options) = resultBytes result ∧
        ∀ sourceText optionsText : String, Utf8.encode sourceText = source →
          Utf8.encode optionsText = options →
          (wrap sourceText optionsText).map Buffer.bytes = resultBytes result ∧
          (Session.withOptions optionsText).format sourceText = result) ∧
      ∀ (requests : List Session.Request) (source : String),
        ∃ (d : Session.Desk) (result : Except Failure String),
          (Session.Desk.start.serveAll (requests ++ [.format source])).getLast? =
            some (d, .ofResult result) ∧
          ∀ allocator : Allocator,
            allocator.Works (Utf8.encode source) (Utf8.encode d.current.optionsText) →
            (transform (Utf8.encode source) (Utf8.encode d.current.optionsText)
              allocator).Delivers result := by
  constructor
  · intro source options hsource hoptions allocator callAllocator hallocator hcall hmanaged
    have hnul : ∀ text, formatBytes source options = .ok text → '\x00' ∉ text.toList :=
      fun text => nul_not_mem_formatBytes hsource
    have htransform := delivers_transform hallocator
    have hcalled := delivers_call hcall hsource hoptions
    refine ⟨formatBytes source options, htransform, (htransform.cString hnul).1, hcalled,
      (hcalled.cString hnul).1, ?_, ?_⟩
    · rw [callManaged, call_eq hsource hoptions]
      exact ((delivers_transform hmanaged).cString hnul).1
    · rintro sourceText optionsText rfl rfl
      refine ⟨((delivers_transform (works_exact _ _)).cString hnul).2, ?_⟩
      exact (Session.read_withOptions optionsText).format_eq sourceText
  · intro requests source
    obtain ⟨d, hd, hlast⟩ := Session.Desk.read_start.serveAll_concat requests (.format source)
    refine ⟨d, d.current.format source, ?_, fun allocator hallocator => ?_⟩
    · rw [hlast, Session.Desk.serve_format]
    · rw [hd.current.format_eq]
      exact delivers_transform hallocator

theorem works_generous (source options : List UInt8) :
    Allocator.generous.Works source options := by
  intro text _
  exact ⟨_, rfl, by simp⟩

/-- An option text that is read, and one that a session has been given before a copy of it is taken
back. -/
theorem entries_agree_padded :
    (∃ result,
      (transform (Utf8.encode "a=b;") (Utf8.encode "-p") .generous).Delivers result ∧
        callManaged (some (Utf8.encode "a=b;")) (some (Utf8.encode "-p")) = resultBytes result ∧
        (Session.withOptions "-p").format "a=b;" = result) ∧
      ∃ d result, (Session.Desk.start.serveAll
          [.setOptions "-p", .save, .setOptions "-q", .restore, .format "a=b;"]).getLast? =
            some (d, .ofResult result) ∧
        d.current.optionsText = "-p" ∧
          (transform (Utf8.encode "a=b;") (Utf8.encode "-p") .generous).Delivers result := by
  have hmanaged : Allocator.managed.Works (Utf8.encode "a=b;") (Utf8.encode "-p") := by
    intro text htext
    have hresult : formatBytes (Utf8.encode "a=b;") (Utf8.encode "-p") = .ok "a = b;" := by
      decide +kernel
    obtain rfl : "a = b;" = text := Except.ok.inj (hresult.symm.trans htext)
    have hmanages : Allocator.manages ((Utf8.encode "a = b;").length + 1) = true := by
      decide +kernel
    exact ⟨_, if_pos hmanages, by simp⟩
  obtain ⟨result, htransform, -, -, -, hcall, htexts⟩ := entries_agree.1 (Utf8.encode "a=b;")
    (Utf8.encode "-p") (by decide +kernel) (by decide +kernel) .generous .exact
    (works_generous _ _) (works_exact _ _) hmanaged
  obtain ⟨d, result', hlast, hdelivers⟩ := entries_agree.2
    [.setOptions "-p", .save, .setOptions "-q", .restore] "a=b;"
  have hrestored : d.current.optionsText = "-p" := by
    let padded := Session.new.setOptions "-p"
    have hserved : (Session.Desk.start.serveAll
        [.setOptions "-p", .save, .setOptions "-q", .restore, .format "a=b;"]).getLast? =
          some (Session.Desk.serve ⟨padded, padded⟩ (.format "a=b;")) := rfl
    rw [Session.Desk.serve_format] at hserved
    obtain ⟨rfl, -⟩ := Prod.mk.inj (Option.some.inj (hserved.symm.trans hlast))
    rfl
  refine ⟨⟨result, htransform, hcall, (htexts _ _ rfl rfl).2⟩, d, result', hlast, hrestored, ?_⟩
  rw [← hrestored]
  exact hdelivers _ (works_generous _ _)

end Beautifier
