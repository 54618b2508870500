import LiveTree.Frame.Message
import LiveTree.Proofs.Frame.Fields
import LiveTree.Proofs.Path.Text

/-!
# Messages read back

A message that a frame can say is read from its frame, with its data in normal form, exactly when its
numbers come back; and every message that is read from a frame is one that a frame can say. Each goes
case by case over the four kinds.
-/

namespace LiveTree.Message

/-- The message with its data as a text can say it. -/
def received : Message → Message
  | update kind p v => update kind p v.normal
  | response id status data => response id status (data.map Value.normal)
  | m => m

def data? : Message → Option Value
  | update _ _ v => some v
  | response _ _ data => data
  | _ => none

/-- The unsigned numbers in the frame of a message. -/
def unsigneds : Message → List Nat
  | handshake time => [time]
  | update .. => []
  | response id .. => [id]
  | closed _ retryAfter => (retryAfter.map Nanos.toMillis).toList

/-- What a frame can say. -/
structure Faithful (m : Message) : Prop where
  unsigned : ∀ n ∈ m.unsigneds, Frame.Survives n
  wholeMillis : ∀ recoverable t, m = closed recoverable (some t) →
    Nanos.ofMillis (Nanos.toMillis t) = t
  notOk : ∀ id data, m ≠ response id (.rejected "ok") data
  notNull : ∀ id status, m ≠ response id status (some .null)
  regular : ∀ v, m.data? = some v → v.Regular
  shallow : m.toValue.depth ≤ Json.maxDepth

variable {m m' : Message} {v w : Value}

theorem ofValue_handshake {time : Nat} (h : Frame.Survives time) :
    ofValue (handshake time).toValue.normal = .ok (handshake time) := by
  have field : ∀ key, (handshake time).toValue.normal.get? key
      = (List.lookup key [("t", .text "h"), ("ts", Frame.writeUnsigned time)]).map Value.normal :=
    fun _ => Frame.get?_normal (by simp)
  have tag := Frame.textField_of_get? (field "t")
  have number := Frame.unsignedField_of_get?
    ((field "ts").trans (congrArg some (Frame.normal_writeUnsigned h))) h
  simp only [ofValue, tag, number, Frame.ok_bind, if_pos]
  rfl

theorem ofValue_update (kind : UpdateKind) (p : Path) (v : Value) :
    ofValue (update kind p v).toValue.normal = .ok (update kind p v.normal) := by
  have field : ∀ key, (update kind p v).toValue.normal.get? key
      = (List.lookup key [("t", .text "d"), ("a", .text kind.code),
        ("b", .object [("p", .text p.text), ("d", v)])]).map Value.normal :=
    fun _ => Frame.get?_normal (by simp)
  have inner : ∀ key, (Value.object [("p", .text p.text), ("d", v)]).normal.get? key
      = (List.lookup key [("p", .text p.text), ("d", v)]).map Value.normal :=
    fun _ => Frame.get?_normal (by simp)
  have tag := Frame.textField_of_get? (field "t")
  have code := Frame.textField_of_get? (field "a")
  have body : (update kind p v).toValue.normal.get? "b"
      = some (Value.object [("p", .text p.text), ("d", v)]).normal := field "b"
  have text := Frame.textField_of_get? (inner "p")
  have data : (Value.object [("p", .text p.text), ("d", v)]).normal.get? "d" = some v.normal :=
    inner "d"
  have path : Frame.parsePath p.text = .ok p := by
    rw [Frame.parsePath, Path.parse_text]
    rfl
  rw [ofValue, tag, Frame.ok_bind, if_neg (by decide), if_pos rfl, readUpdate, code, Frame.ok_bind,
    body]
  cases kind
  all_goals
    simp only [UpdateKind.code, Frame.ok_bind, text, path, data, if_pos, String.reduceEq]
    rfl

theorem nodup_response (id : RequestId) (status : Status) (data : Option Value) :
    (([("t", Value.text "r"), ("r", Frame.writeUnsigned id), ("s", .text status.code)]
      ++ (data.map fun v => ("d", v)).toList).map Prod.fst).Nodup := by
  cases data <;> simp

theorem ofValue_response {id : RequestId} {status : Status} {data : Option Value}
    (number : Frame.Survives id) (notOk : status ≠ .rejected "ok")
    (notNull : ∀ v ∈ data, v.normal.isNull = false) :
    ofValue (response id status data).toValue.normal
      = .ok (response id status (data.map Value.normal)) := by
  have field : ∀ key, (response id status data).toValue.normal.get? key
      = (List.lookup key ([("t", .text "r"), ("r", Frame.writeUnsigned id), ("s", .text status.code)]
        ++ (data.map fun v => ("d", v)).toList)).map Value.normal :=
    fun _ => Frame.get?_normal (nodup_response id status data)
  have tag := Frame.textField_of_get? (field "t")
  have id_ := Frame.unsignedField_of_get?
    ((field "r").trans (congrArg some (Frame.normal_writeUnsigned number))) number
  have code := Frame.textField_of_get? (field "s")
  have payload : ((response id status data).toValue.normal.get? "d").filter (fun d => !d.isNull)
      = data.map Value.normal := by
    rw [field "d"]
    cases data with
    | none => rfl
    | some v =>
      have present := notNull v rfl
      exact Option.filter_some_pos (by rw [present]; rfl)
  have status_ : (if status.code = "ok" then Status.ok else .rejected status.code) = status := by
    cases status with
    | ok => rfl
    | rejected s => exact if_neg fun same => notOk (congrArg _ same)
  rw [ofValue, tag, Frame.ok_bind, if_neg (by decide), if_neg (by decide), if_pos rfl, readResponse,
    id_, Frame.ok_bind, code, Frame.ok_bind, payload, status_]
  rfl

theorem ofValue_closed {recoverable : Bool} {retryAfter : Option Nanos}
    (whole : ∀ t ∈ retryAfter, Nanos.ofMillis (Nanos.toMillis t) = t)
    (numbers : ∀ t ∈ retryAfter, Frame.Survives (Nanos.toMillis t)) :
    ofValue (closed recoverable retryAfter).toValue.normal = .ok (closed recoverable retryAfter) := by
  have field : ∀ key, (closed recoverable retryAfter).toValue.normal.get? key
      = (List.lookup key ([("t", .text "c"), ("recoverable", .bool recoverable)] ++ (retryAfter.map
        fun t => ("retry_after", Frame.writeUnsigned (Nanos.toMillis t))).toList)).map
          Value.normal := by
    intro key
    exact Frame.get?_normal (by cases retryAfter <;> simp)
  have tag := Frame.textField_of_get? (field "t")
  have flag : (closed recoverable retryAfter).toValue.normal.get? "recoverable"
      = some (.bool recoverable) := field "recoverable"
  rw [ofValue, tag, Frame.ok_bind, if_neg (by decide), if_neg (by decide), if_neg (by decide),
    if_pos rfl, readClosed, flag]
  cases retryAfter with
  | none =>
    rw [field "retry_after"]
    rfl
  | some t =>
    have survives := numbers t rfl
    have delay := (field "retry_after").trans (congrArg some (Frame.normal_writeUnsigned survives))
    have number := Frame.unsignedField_of_get? delay survives
    rw [delay]
    simp only [Frame.writeUnsigned, number]
    exact congrArg (fun t => Except.ok (closed recoverable (some t))) (whole t rfl)

theorem Faithful.legible_toValue (h : m.Faithful)
    (legible : Frame.Legible m.unsigneds m.data?) : Json.Legible m.toValue := by
  have number : ∀ n ∈ m.unsigneds, Json.Legible (Frame.writeUnsigned n) := fun n hn =>
    (Frame.legible_writeUnsigned_iff (h.unsigned n hn)).mpr (legible.unsigned n hn)
  cases m with
  | handshake time =>
    refine .of_pairs ?_
    simp only [List.forall_mem_cons]
    exact ⟨.text _, number time (.head _), nofun⟩
  | update kind p v =>
    have body : Json.Legible (.object [("p", .text p.text), ("d", v)]) := by
      refine .of_pairs ?_
      simp only [List.forall_mem_cons]
      exact ⟨.text _, legible.data v rfl, nofun⟩
    refine .of_pairs ?_
    simp only [List.forall_mem_cons]
    exact ⟨.text _, .text _, body, nofun⟩
  | response id status data =>
    refine .of_pairs (List.forall_mem_append.mpr ⟨?_, ?_⟩)
    · simp only [List.forall_mem_cons]
      exact ⟨.text _, number id (.head _), .text _, nofun⟩
    · cases data with
      | none => exact nofun
      | some v => exact List.forall_mem_singleton.mpr (legible.data v rfl)
  | closed recoverable retryAfter =>
    refine .of_pairs (List.forall_mem_append.mpr ⟨?_, ?_⟩)
    · simp only [List.forall_mem_cons]
      exact ⟨.text _, .bool _, nofun⟩
    · cases retryAfter with
      | none => exact nofun
      | some t => exact List.forall_mem_singleton.mpr (number _ (.head _))

/-- A faithful message with legible numbers is read from its frame, with its data in normal form. -/
theorem Faithful.decode_encode (h : m.Faithful) (legible : Frame.Legible m.unsigneds m.data?) :
    decode m.encode = .ok m.received := by
  have read := Json.reread_eq_normal_iff.mpr (h.legible_toValue legible)
  rw [decode, encode, (Frame.readFrame_toJson h.shallow).mpr read, Except.bind]
  cases m with
  | handshake time => exact ofValue_handshake (h.unsigned time (.head _))
  | update kind p v => exact ofValue_update kind p v
  | response id status data =>
    refine ofValue_response (h.unsigned id (.head _)) ?_ ?_
    · rintro rfl
      exact h.notOk id data rfl
    · intro v hv
      obtain rfl := hv
      rw [(h.regular v rfl).isNull_normal]
      cases v with
      | null => exact absurd rfl (h.notNull id status)
      | _ => rfl
  | closed recoverable retryAfter =>
    refine ofValue_closed ?_ ?_
    · intro t ht
      obtain rfl := ht
      exact h.wholeMillis recoverable t rfl
    · intro t ht
      obtain rfl := ht
      exact h.unsigned _ (.head _)

theorem received_sameAs (regular : ∀ v, m.data? = some v → v.Regular) :
    m.received.sameAs m = true := by
  cases m with
  | handshake time => exact beq_self_eq_true time
  | update kind p v => simp [received, sameAs, (regular v rfl).sameAs_normal]
  | response id status data =>
    cases data with
    | none => simp [received, sameAs]
    | some v => simp [received, sameAs, (regular v rfl).sameAs_normal]
  | closed recoverable retryAfter => simp [received, sameAs]

theorem readUpdate_cases (h : readUpdate v = .ok m) : ∃ kind p body,
    v.get? "b" = some body ∧ m = update kind p ((body.get? "d").getD .null) := by
  obtain ⟨code, _, h⟩ := Frame.bind_eq_ok.mp h
  have finish : ∀ kind body, v.get? "b" = some body → (do
      let text ← Frame.textField body "p"
      let path ← Frame.parsePath text
      return update kind path ((body.get? "d").getD .null)) = Except.ok m →
      ∃ kind p body, v.get? "b" = some body ∧ m = update kind p ((body.get? "d").getD .null) := by
    intro kind body there h
    obtain ⟨text, _, h⟩ := Frame.bind_eq_ok.mp h
    obtain ⟨p, _, ⟨⟩⟩ := Frame.bind_eq_ok.mp h
    exact ⟨kind, p, body, there, rfl⟩
  simp only [Frame.ok_bind] at h
  split at h
  · split at h
    · exact finish .put _ ‹_› h
    · cases h
  · split at h
    · split at h
      · exact finish .merge _ ‹_› h
      · cases h
    · cases h

theorem millis_ofMillis (ms : Nat) : Nanos.toMillis (Nanos.ofMillis ms) = ms :=
  Nat.mul_div_cancel ms (by decide)

theorem readClosed_cases (h : readClosed v = .ok m) : ∃ recoverable, m = closed recoverable none
    ∨ ∃ ms, Frame.unsignedField v "retry_after" = .ok ms
      ∧ m = closed recoverable (some (Nanos.ofMillis ms)) := by
  unfold readClosed at h
  simp only [Frame.ok_bind] at h
  split at h
  · cases h
    exact ⟨_, Or.inl rfl⟩
  · cases h
    exact ⟨_, Or.inl rfl⟩
  · obtain ⟨retryAfter, number, ⟨⟩⟩ := Frame.bind_eq_ok.mp h
    cases read : Frame.unsignedField v "retry_after" with
    | error e =>
      rw [read] at number
      cases number
    | ok ms =>
      rw [read] at number
      cases number
      exact ⟨_, Or.inr ⟨ms, rfl, rfl⟩⟩

theorem legible_of_handshake {time : Nat} (back : Json.reread (handshake time).toValue = some w)
    (read : ofValue w = .ok m') (same : m'.sameAs (handshake time) = true) :
    Json.Legible (Frame.writeUnsigned time) := by
  have tag := Frame.textField_of_get? (Frame.get?_reread "t" (by simp) back rfl)
  have number := Frame.get?_reread "ts" (by simp) back rfl
  rw [ofValue, tag, Frame.ok_bind, if_pos rfl] at read
  obtain ⟨time', field, ⟨⟩⟩ := Frame.bind_eq_ok.mp read
  obtain rfl := beq_iff_eq.mp same
  exact Frame.legible_of_unsignedField field number

theorem legible_of_update {kind : UpdateKind} {p : Path} (regular : v.Regular)
    (back : Json.reread (update kind p v).toValue = some w) (read : ofValue w = .ok m')
    (same : m'.sameAs (update kind p v) = true) : Json.Legible v := by
  have tag := Frame.textField_of_get? (Frame.get?_reread "t" (by simp) back rfl)
  have outer := Frame.get?_reread "b" (by simp) back rfl
  rw [ofValue, tag, Frame.ok_bind, if_neg (by decide), if_pos rfl] at read
  obtain ⟨kind', p', body, there, rfl⟩ := readUpdate_cases read
  have data := Frame.get?_reread "d" (by simp) (outer.symm.trans there) rfl
  obtain ⟨_, alike⟩ := Bool.and_eq_true_iff.mp same
  rw [data] at alike
  cases found : Json.reread v with
  | some x =>
    rw [found] at alike
    exact Json.legible_of_sameAs regular found alike
  | none =>
    -- what is missing is read as null, and null comes back
    rw [found] at alike
    cases v with
    | null => cases found
    | _ => cases alike

theorem legible_of_response {id : RequestId} {status : Status} {data : Option Value}
    (regular : ∀ v, data = some v → v.Regular)
    (back : Json.reread (response id status data).toValue = some w) (read : ofValue w = .ok m')
    (same : m'.sameAs (response id status data) = true) :
    Json.Legible (Frame.writeUnsigned id) ∧ ∀ v, data = some v → Json.Legible v := by
  have distinct := nodup_response id status data
  have tag := Frame.textField_of_get? (Frame.get?_reread "t" distinct back rfl)
  have number := Frame.get?_reread "r" distinct back rfl
  rw [ofValue, tag, Frame.ok_bind, if_neg (by decide), if_neg (by decide), if_pos rfl] at read
  obtain ⟨id', field, read⟩ := Frame.bind_eq_ok.mp read
  obtain ⟨code, _, ⟨⟩⟩ := Frame.bind_eq_ok.mp read
  obtain ⟨both, payload⟩ := Bool.and_eq_true_iff.mp same
  obtain rfl := beq_iff_eq.mp (Bool.and_eq_true_iff.mp both).1
  refine ⟨Frame.legible_of_unsignedField field number, ?_⟩
  rintro v rfl
  have there := Frame.get?_reread "d" distinct back rfl
  split at payload
  · rename_i x y found same'
    cases same'
    obtain ⟨found, _⟩ := Option.filter_eq_some_iff.mp found
    exact Json.legible_of_sameAs (regular v rfl) (there.symm.trans found) payload
  · rename_i none'
    cases none'
  · cases payload

theorem legible_of_closed {recoverable : Bool} {t : Nanos}
    (back : Json.reread (closed recoverable (some t)).toValue = some w) (read : ofValue w = .ok m')
    (same : m'.sameAs (closed recoverable (some t)) = true) :
    Json.Legible (Frame.writeUnsigned (Nanos.toMillis t)) := by
  have tag := Frame.textField_of_get? (Frame.get?_reread "t" (by simp) back rfl)
  have delay := Frame.get?_reread "retry_after" (by simp) back rfl
  rw [ofValue, tag, Frame.ok_bind, if_neg (by decide), if_neg (by decide), if_neg (by decide),
    if_pos rfl] at read
  obtain ⟨_, rfl | ⟨ms, field, rfl⟩⟩ := readClosed_cases read
  · simp [sameAs] at same
  · obtain rfl := Option.some.inj (beq_iff_eq.mp (Bool.and_eq_true_iff.mp same).2)
    rw [millis_ofMillis] at delay ⊢
    exact Frame.legible_of_unsignedField field delay

theorem Faithful.legible_of_decode (h : m.Faithful) (decoded : decode m.encode = .ok m')
    (same : m'.sameAs m = true) : Frame.Legible m.unsigneds m.data? := by
  obtain ⟨w, back, read⟩ := Frame.bind_eq_ok.mp decoded
  rw [encode, Frame.readFrame_toJson h.shallow] at back
  have numbers : (∀ n ∈ m.unsigneds, Json.Legible (Frame.writeUnsigned n))
      ∧ ∀ v, m.data? = some v → Json.Legible v := by
    cases m with
    | handshake time =>
      refine ⟨?_, nofun⟩
      rintro _ (_ | ⟨_, ⟨⟩⟩)
      exact legible_of_handshake back read same
    | update kind p v =>
      refine ⟨nofun, ?_⟩
      rintro _ ⟨⟩
      exact legible_of_update (h.regular v rfl) back read same
    | response id status data =>
      obtain ⟨number, data_⟩ := legible_of_response h.regular back read same
      refine ⟨?_, data_⟩
      rintro _ (_ | ⟨_, ⟨⟩⟩)
      exact number
    | closed recoverable retryAfter =>
      cases retryAfter with
      | none => exact ⟨nofun, nofun⟩
      | some t =>
        refine ⟨?_, nofun⟩
        rintro _ (_ | ⟨_, ⟨⟩⟩)
        exact legible_of_closed back read same
  exact ⟨fun n hn => (Frame.legible_writeUnsigned_iff (h.unsigned n hn)).mp (numbers.1 n hn),
    numbers.2⟩

/-- A faithful message comes back from its frame exactly when its numbers are legible. -/
theorem Faithful.decode_encode_iff (h : m.Faithful) :
    (∃ m', decode m.encode = .ok m' ∧ m'.sameAs m = true) ↔ Frame.Legible m.unsigneds m.data? :=
  ⟨fun ⟨_, read, same⟩ => h.legible_of_decode read same,
    fun legible => ⟨m.received, h.decode_encode legible, received_sameAs h.regular⟩⟩

theorem depth_handshake (time : Nat) : (handshake time).toValue.depth = 1 := by
  simp [toValue, Value.depth, Value.depthOfPairs, Frame.writeUnsigned]

theorem depth_update (kind : UpdateKind) (p : Path) (v : Value) :
    (update kind p v).toValue.depth = v.depth + 2 := by
  simp [toValue, Value.depth, Value.depthOfPairs]

theorem depth_response (id : RequestId) (status : Status) (data : Option Value) :
    (response id status data).toValue.depth = (data.map Value.depth).getD 0 + 1 := by
  cases data <;> simp [toValue, Value.depth, Value.depthOfPairs, Frame.writeUnsigned]

theorem depth_closed (recoverable : Bool) (retryAfter : Option Nanos) :
    (closed recoverable retryAfter).toValue.depth = 1 := by
  cases retryAfter <;> simp [toValue, Value.depth, Value.depthOfPairs, Frame.writeUnsigned]

theorem faithful_of_readUpdate (regular : v.Regular) (shallow : v.depth ≤ Json.maxDepth)
    (h : readUpdate v = .ok m) : m.Faithful := by
  obtain ⟨kind, p, body, there, rfl⟩ := readUpdate_cases h
  obtain ⟨bodyRegular, bodyBelow⟩ := Frame.field_regular (by decide) regular there
  have data : ((body.get? "d").getD .null).Regular
      ∧ ((body.get? "d").getD .null).depth + 2 ≤ Json.maxDepth := by
    cases found : body.get? "d" with
    | none => exact ⟨.null, by decide⟩
    | some x =>
      obtain ⟨regular, below⟩ := Frame.field_regular (by decide) bodyRegular found
      exact ⟨regular, by rw [Option.getD_some]; omega⟩
  refine ⟨nofun, nofun, nofun, nofun, ?_, ?_⟩
  · rintro _ ⟨⟩
    exact data.1
  · rw [depth_update]
    exact data.2

theorem faithful_of_readResponse (regular : v.Regular) (shallow : v.depth ≤ Json.maxDepth)
    (h : readResponse v = .ok m) : m.Faithful := by
  obtain ⟨id, number, h⟩ := Frame.bind_eq_ok.mp h
  obtain ⟨code, _, h⟩ := Frame.bind_eq_ok.mp h
  have data : ∀ x, (v.get? "d").filter (fun d => !d.isNull) = some x →
      x.Regular ∧ x.depth + 1 ≤ v.depth ∧ x.isNull = false := by
    intro x hx
    obtain ⟨found, present⟩ := Option.filter_eq_some_iff.mp hx
    obtain ⟨regular, below⟩ := Frame.field_regular (by decide) regular found
    exact ⟨regular, below, by simpa using present⟩
  have status : (if code = "ok" then Status.ok else .rejected code) ≠ .rejected "ok" := by
    split
    · nofun
    · rename_i other
      exact fun same => other (Status.rejected.inj same)
  cases h
  refine ⟨?_, nofun, ?_, ?_, ?_, ?_⟩
  · rintro _ (_ | ⟨_, ⟨⟩⟩)
    exact Frame.unsignedField_survives number
  · intro _ _ same
    exact status (response.inj same).2.1
  · intro _ _ same
    have null := (data .null (response.inj same).2.2).2.2
    cases null
  · exact fun x hx => (data x hx).1
  · rw [depth_response]
    cases found : (v.get? "d").filter fun d => !d.isNull with
    | none => decide
    | some x => exact Nat.le_trans (data x found).2.1 shallow

theorem faithful_of_readClosed (h : readClosed v = .ok m) : m.Faithful := by
  obtain ⟨recoverable, rfl | ⟨ms, field, rfl⟩⟩ := readClosed_cases h
  · exact ⟨nofun, nofun, nofun, nofun, nofun, by rw [depth_closed]; decide⟩
  · refine ⟨?_, ?_, nofun, nofun, nofun, by rw [depth_closed]; decide⟩
    · rintro _ (_ | ⟨_, ⟨⟩⟩)
      rw [millis_ofMillis]
      exact Frame.unsignedField_survives field
    · rintro _ _ ⟨⟩
      rw [millis_ofMillis]

theorem faithful_of_ofValue (regular : v.Regular) (shallow : v.depth ≤ Json.maxDepth)
    (h : ofValue v = .ok m) : m.Faithful := by
  obtain ⟨tag, _, h⟩ := Frame.bind_eq_ok.mp h
  split at h
  · obtain ⟨time, number, ⟨⟩⟩ := Frame.bind_eq_ok.mp h
    refine ⟨?_, nofun, nofun, nofun, nofun, by rw [depth_handshake]; decide⟩
    rintro _ (_ | ⟨_, ⟨⟩⟩)
    exact Frame.unsignedField_survives number
  · split at h
    · exact faithful_of_readUpdate regular shallow h
    · split at h
      · exact faithful_of_readResponse regular shallow h
      · split at h
        · exact faithful_of_readClosed h
        · cases h

theorem faithful_of_decode {text : String} (h : decode text = .ok m) : m.Faithful := by
  obtain ⟨v, read, h⟩ := Frame.bind_eq_ok.mp h
  obtain ⟨regular, shallow⟩ := Frame.readFrame_regular read
  exact faithful_of_ofValue regular shallow h

end LiveTree.Message
