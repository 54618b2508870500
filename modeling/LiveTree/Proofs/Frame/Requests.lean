import LiveTree.Frame.Request
import LiveTree.Proofs.Frame.Fields
import LiveTree.Proofs.Path.Text

/-!
# Requests read back

A request that a frame can say is read from its frame, with its data in normal form, exactly when its
numbers come back; and every request that is read from a frame is one that a frame can say. The parts
of the body are optional, and a body without parts is left out.
-/

namespace LiveTree.Request

/-- The request with its data as a text can say it. -/
def received (r : Request) : Request := { r with data := r.data.map Value.normal }

/-- What a frame can say. -/
structure Faithful (r : Request) : Prop where
  id : Frame.Survives r.id
  regular : ∀ v, r.data = some v → v.Regular
  shallow : r.toValue.depth ≤ Json.maxDepth

variable {r r' : Request} {v w : Value}

theorem nodup_body (r : Request) : (r.body.map Prod.fst).Nodup := by
  obtain ⟨id, action, path, data, credential⟩ := r
  cases path <;> cases data <;> cases credential <;> simp [body]

theorem lookup_path (r : Request) : r.body.lookup "p" = r.path.map fun p => .text p.text := by
  obtain ⟨id, action, path, data, credential⟩ := r
  cases path <;> cases data <;> cases credential <;> rfl

theorem lookup_data (r : Request) : r.body.lookup "d" = r.data := by
  obtain ⟨id, action, path, data, credential⟩ := r
  cases path <;> cases data <;> cases credential <;> rfl

theorem lookup_credential (r : Request) :
    r.body.lookup "cred" = r.credential.map Value.text := by
  obtain ⟨id, action, path, data, credential⟩ := r
  cases path <;> cases data <;> cases credential <;> rfl

theorem nodup_fields (r : Request) : (([("r", Frame.writeUnsigned r.id),
    ("a", .text r.action.code)] ++ if r.body.isEmpty then [] else
      [("b", Value.object r.body)]).map Prod.fst).Nodup := by
  split <;> simp

theorem get?_normal_toValue (r : Request) (key : String) : r.toValue.normal.get? key
    = (List.lookup key ([("r", Frame.writeUnsigned r.id), ("a", .text r.action.code)]
      ++ if r.body.isEmpty then [] else [("b", .object r.body)])).map Value.normal :=
  Frame.get?_normal r.nodup_fields

/-- The fields of the body, whether there is a body or not. -/
theorem get?_body (r : Request) (key : String) :
    ((r.toValue.normal.get? "b").bind (·.get? key)) = (r.body.lookup key).map Value.normal := by
  rw [get?_normal_toValue]
  split
  · rename_i none
    rw [List.isEmpty_iff.mp none]
    rfl
  · exact Frame.get?_normal r.nodup_body

theorem bodyPath_toValue (r : Request) : bodyPath (r.toValue.normal.get? "b") = .ok r.path := by
  rw [bodyPath, get?_body, lookup_path]
  cases r.path with
  | none => rfl
  | some p =>
    change (Frame.parsePath p.text).map some = _
    rw [Frame.parsePath, Path.parse_text]
    rfl

theorem ofValue_toValue (h : Frame.Survives r.id) : ofValue r.toValue.normal = .ok r.received := by
  have field := r.get?_normal_toValue
  have number := Frame.unsignedField_of_get?
    ((field "r").trans (congrArg some (Frame.normal_writeUnsigned h))) h
  have code := Frame.textField_of_get? (field "a")
  have data := r.get?_body "d"
  have credential := r.get?_body "cred"
  rw [lookup_data] at data
  rw [lookup_credential] at credential
  rw [ofValue, number, Frame.ok_bind, code, Frame.ok_bind, Action.ofCode?_code]
  have text : ((r.credential.map Value.text).map Value.normal).bind Value.text? = r.credential := by
    cases r.credential <;> rfl
  simp only [Frame.ok_bind, bodyPath_toValue, data, credential, text]
  rfl

theorem Faithful.legible_toValue (h : r.Faithful) (legible : Frame.Legible [r.id] r.data) :
    Json.Legible r.toValue := by
  have number := (Frame.legible_writeUnsigned_iff h.id).mpr (legible.unsigned r.id (.head _))
  have body : ∀ p ∈ r.body, Json.Legible p.2 := by
    intro p hp
    simp only [Request.body, List.mem_append, Option.mem_toList, Option.map_eq_some_iff] at hp
    rcases hp with (⟨path, _, rfl⟩ | ⟨x, found, rfl⟩) | ⟨credential, _, rfl⟩
    · exact .text _
    · exact legible.data x found
    · exact .text _
  refine .of_pairs (List.forall_mem_append.mpr ⟨?_, ?_⟩)
  · simp only [List.forall_mem_cons]
    exact ⟨number, .text _, nofun⟩
  · split
    · exact List.forall_mem_nil _
    · exact List.forall_mem_singleton.mpr (.of_pairs body)

/-- A faithful request with legible numbers is read from its frame, with its data in normal form. -/
theorem Faithful.decode_encode (h : r.Faithful) (legible : Frame.Legible [r.id] r.data) :
    decode r.encode = .ok r.received := by
  have read := Json.reread_eq_normal_iff.mpr (h.legible_toValue legible)
  rw [decode, encode, (Frame.readFrame_toJson h.shallow).mpr read, Except.bind]
  exact ofValue_toValue h.id

theorem received_sameAs (regular : ∀ v, r.data = some v → v.Regular) :
    r.received.sameAs r = true := by
  obtain ⟨id, action, path, data, credential⟩ := r
  cases data with
  | none => simp [received, sameAs]
  | some v => simp [received, sameAs, (regular v rfl).sameAs_normal]

theorem ofValue_cases (h : ofValue w = .ok r) : Frame.unsignedField w "r" = .ok r.id
    ∧ r.data = (w.get? "b").bind (·.get? "d") := by
  obtain ⟨id, field, h⟩ := Frame.bind_eq_ok.mp h
  obtain ⟨code, _, h⟩ := Frame.bind_eq_ok.mp h
  simp only [Frame.ok_bind] at h
  split at h
  · obtain ⟨path, _, ⟨⟩⟩ := Frame.bind_eq_ok.mp h
    exact ⟨field, rfl⟩
  · cases h

theorem Faithful.legible_of_decode (h : r.Faithful) (decoded : decode r.encode = .ok r')
    (same : r'.sameAs r = true) : Frame.Legible [r.id] r.data := by
  obtain ⟨w, back, read⟩ := Frame.bind_eq_ok.mp decoded
  rw [encode, Frame.readFrame_toJson h.shallow] at back
  obtain ⟨field, data⟩ := ofValue_cases read
  simp only [sameAs, Bool.and_eq_true, beq_iff_eq] at same
  obtain ⟨⟨⟨⟨id, _⟩, _⟩, _⟩, alike⟩ := same
  have number := Frame.legible_of_unsignedField (id ▸ field)
    (Frame.get?_reread "r" r.nodup_fields back rfl)
  refine ⟨?_, fun v hv => ?_⟩
  · rintro _ (_ | ⟨_, ⟨⟩⟩)
    exact (Frame.legible_writeUnsigned_iff h.id).mp number
  · have there : r.body.isEmpty = false := Bool.eq_false_iff.mpr fun empty => by
      have found := r.lookup_data
      rw [List.isEmpty_iff.mp empty, hv] at found
      cases found
    have outer : w.get? "b" = Json.reread (.object r.body) := by
      refine Frame.get?_reread "b" r.nodup_fields back ?_
      rw [there]
      rfl
    rw [data, hv] at alike
    split at alike
    · rename_i x y found same'
      cases same'
      obtain ⟨body, some_, found⟩ := Option.bind_eq_some_iff.mp found
      have inner := Frame.get?_reread "d" r.nodup_body (outer.symm.trans some_)
        (r.lookup_data.trans hv)
      exact Json.legible_of_sameAs (h.regular v hv) (inner.symm.trans found) alike
    · rename_i none'
      cases none'
    · cases alike

/-- A faithful request comes back from its frame exactly when its numbers are legible. -/
theorem Faithful.decode_encode_iff (h : r.Faithful) :
    (∃ r', decode r.encode = .ok r' ∧ r'.sameAs r = true) ↔ Frame.Legible [r.id] r.data :=
  ⟨fun ⟨_, read, same⟩ => h.legible_of_decode read same,
    fun legible => ⟨r.received, h.decode_encode legible, received_sameAs h.regular⟩⟩

theorem depth_toValue_le {limit : Nat} (data : ∀ x, r.data = some x → x.depth ≤ limit) :
    r.toValue.depth ≤ limit + 2 := by
  have fields : ∀ p ∈ r.body, p.2.depth ≤ limit := by
    intro p hp
    simp only [body, List.mem_append, Option.mem_toList, Option.map_eq_some_iff] at hp
    rcases hp with (⟨path, _, rfl⟩ | ⟨x, found, rfl⟩) | ⟨credential, _, rfl⟩
    · exact Nat.zero_le limit
    · exact data x found
    · exact Nat.zero_le limit
  refine Value.depth_object_le_iff.mpr (List.forall_mem_append.mpr ⟨?_, ?_⟩)
  · simp [Frame.writeUnsigned, Value.depth]
  · split
    · exact List.forall_mem_nil _
    · exact List.forall_mem_singleton.mpr (Value.depth_object_le_iff.mpr fields)

theorem faithful_of_ofValue (regular : v.Regular) (shallow : v.depth ≤ Json.maxDepth)
    (h : ofValue v = .ok r) : r.Faithful := by
  obtain ⟨id, number, h⟩ := Frame.bind_eq_ok.mp h
  obtain ⟨code, _, h⟩ := Frame.bind_eq_ok.mp h
  have data : ∀ x, (v.get? "b").bind (·.get? "d") = some x →
      x.Regular ∧ x.depth ≤ 125 := by
    intro x hx
    obtain ⟨body, there, found⟩ := Option.bind_eq_some_iff.mp hx
    obtain ⟨bodyRegular, bodyBelow⟩ := Frame.field_regular (by decide) regular there
    obtain ⟨regular, below⟩ := Frame.field_regular (by decide) bodyRegular found
    exact ⟨regular, by rw [Json.maxDepth] at shallow; omega⟩
  simp only [Frame.ok_bind] at h
  split at h
  · obtain ⟨path, _, ⟨⟩⟩ := Frame.bind_eq_ok.mp h
    exact ⟨Frame.unsignedField_survives number, fun x hx => (data x hx).1,
      depth_toValue_le fun x hx => (data x hx).2⟩
  · cases h

theorem faithful_of_decode {text : String} (h : decode text = .ok r) : r.Faithful := by
  obtain ⟨v, read, h⟩ := Frame.bind_eq_ok.mp h
  obtain ⟨regular, shallow⟩ := Frame.readFrame_regular read
  exact faithful_of_ofValue regular shallow h

end LiveTree.Request
