import LiveTree.Proofs.Frame.Messages
import LiveTree.Proofs.Frame.Requests

/-!
# Frames read back

Writing a frame and reading it are inverse to each other on what frames can say, as long as the numbers
come back. Whatever is read from a frame can be said by one, but a number in it may be written with a
numeral that is not accurate, and then the frame is read as another one or not at all.
-/

namespace LiveTree.Frame

/-- What is faithful comes back from its own frame, with numbers compared as numbers, exactly when its
numbers are legible; and what is read from any text is faithful. -/
theorem frames_round_trip (m : Message) (r : Request) :
    (m.Faithful → ((∃ m', Message.decode m.encode = .ok m' ∧ m'.sameAs m = true) ↔
      Legible m.unsigneds m.data?))
    ∧ (r.Faithful → ((∃ r', Request.decode r.encode = .ok r' ∧ r'.sameAs r = true) ↔
      Legible [r.id] r.data))
    ∧ (∀ text, Message.decode text = .ok m → m.Faithful)
    ∧ ∀ text, Request.decode text = .ok r → r.Faithful :=
  ⟨Message.Faithful.decode_encode_iff, Request.Faithful.decode_encode_iff,
    fun _ => Message.faithful_of_decode, fun _ => Request.faithful_of_decode⟩

/-- An answer with the greatest number, and with numbers in its data that a text can just say. -/
def answer : Message :=
  .response maxUnsigned (.rejected "denied")
    (some (.object [("least", .number ⟨1⟩), ("none", .number Double.negativeZero)]))

def proposal : Request := .put 3 Path.root (.array [.number ⟨0x3fb999999999999a⟩, .text "\"\n"])

theorem answer_faithful : answer.Faithful := by
  refine ⟨?_, nofun, by simp [answer], by simp [answer], ?_, by decide⟩
  · rintro _ (_ | ⟨_, ⟨⟩⟩)
    exact survives_maxUnsigned
  · rintro _ ⟨⟩
    refine .object (by decide) ?_
    simp only [List.forall_mem_cons]
    exact ⟨.number rfl, .number rfl, nofun⟩

theorem answer_legible : Legible answer.unsigneds answer.data? := by
  refine ⟨?_, ?_⟩
  · rintro _ (_ | ⟨_, ⟨⟩⟩)
    exact Or.inr (by decide +kernel)
  · rintro _ ⟨⟩
    refine .of_pairs ?_
    simp only [List.forall_mem_cons]
    exact ⟨.number (by decide +kernel), .number (by decide +kernel), nofun⟩

theorem proposal_faithful : proposal.Faithful := by
  refine ⟨?_, ?_, by decide⟩
  · unfold Survives
    decide +kernel
  · rintro _ ⟨⟩
    refine .array ?_
    simp only [List.forall_mem_cons]
    exact ⟨.number rfl, .text _, nofun⟩

theorem proposal_legible : Legible [proposal.id] proposal.data := by
  refine ⟨?_, ?_⟩
  · rintro _ (_ | ⟨_, ⟨⟩⟩)
    exact Or.inl (by decide)
  · rintro _ ⟨⟩
    refine .array ?_
    simp only [List.forall_mem_cons]
    exact ⟨.number (by decide +kernel), .text _, nofun⟩

theorem answer_and_proposal_round_trip :
    (answer.Faithful ∧ Legible answer.unsigneds answer.data?
        ∧ ∃ m', Message.decode answer.encode = .ok m' ∧ m'.sameAs answer = true)
      ∧ (proposal.Faithful ∧ Legible [proposal.id] proposal.data
        ∧ ∃ r', Request.decode proposal.encode = .ok r' ∧ r'.sameAs proposal = true)
      ∧ (Message.decode answer.encode = .ok answer.received ∧ answer.received.Faithful)
      ∧ Request.decode proposal.encode = .ok proposal.received ∧ proposal.received.Faithful := by
  have first := answer_faithful.decode_encode answer_legible
  have second := proposal_faithful.decode_encode proposal_legible
  obtain ⟨message, request, _, _⟩ := frames_round_trip answer proposal
  obtain ⟨_, _, message', request'⟩ := frames_round_trip answer.received proposal.received
  exact ⟨⟨answer_faithful, answer_legible, (message answer_faithful).mpr answer_legible⟩,
    ⟨proposal_faithful, proposal_legible, (request proposal_faithful).mpr proposal_legible⟩,
    ⟨first, message' _ first⟩, second, request' _ second⟩

/-- True of an answer without data that takes up the request. -/
def takesUp (id : RequestId) : Except FrameError Message → Bool
  | .ok (.response i .ok none) => i == id
  | _ => false

theorem eq_of_takesUp {id : RequestId} {read : Except FrameError Message}
    (h : takesUp id read = true) : read = .ok (.response id .ok none) := by
  unfold takesUp at h
  split at h
  · rw [beq_iff_eq.mp h]
  · cases h

/-- The answer to a request with a large number can be read, and is read from its own frame as the answer
to another request. -/
theorem large_id_lost :
    Message.decode "\x7b\"t\":\"r\",\"r\":3909821048582988288,\"s\":\"ok\"\x7d"
        = .ok (.response 3909821048582988288 .ok none)
      ∧ (Message.response 3909821048582988288 .ok none).Faithful
      ∧ Message.decode (Message.response 3909821048582988288 .ok none).encode
        = .ok (.response 3909821048582987776 .ok none) := by
  have read : Message.decode "\x7b\"t\":\"r\",\"r\":3909821048582988288,\"s\":\"ok\"\x7d"
      = .ok (.response 3909821048582988288 .ok none) := eq_of_takesUp (by decide +kernel)
  exact ⟨read, Message.faithful_of_decode read, eq_of_takesUp (by decide +kernel)⟩

end LiveTree.Frame
