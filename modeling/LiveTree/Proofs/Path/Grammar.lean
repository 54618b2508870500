import LiveTree.Proofs.Path.Order
import LiveTree.Proofs.Path.Text

/-!
# Which texts are paths

A text is a path exactly when at most 32 pieces stand between its slashes, empty ones apart, and none
of them has a barred character; the pieces are the segments of the path. A path that is made from
names, all at once or one by one, accepts the same names. And whatever way a path was made, it is read
again from its text, and no other path has that text.

Nothing is said here about the error of a text that is no path.
-/

namespace LiveTree

namespace Segment

/-- A character that no name may have: a point, a hash, a dollar sign, a square bracket or a control
character. -/
def Barred (c : Char) : Prop :=
  c ∈ ['.', '#', '$', '[', ']'] ∨ c.toNat < 32 ∨ (127 ≤ c.toNat ∧ c.toNat < 160)

theorem isForbidden_iff {c : Char} : isForbidden c = true ↔ Barred c := by
  simp [isForbidden, Barred, reserved, Text.isControl]

theorem isClean_iff {s : String} : isClean s = true ↔ ∀ c ∈ s.toList, ¬ Barred c := by
  simp [isClean, ← isForbidden_iff]

end Segment

namespace Path

variable {p q : Path} {names : List String} {input s t : String}

theorem cut_eq_splitOn (cs : List Char) : cut cs = cs.splitOn '/' := by
  induction cs with
  | nil => rfl
  | cons c cs ih =>
    have step : (c :: cs).splitOn '/' = if (c == '/') = true then [] :: cs.splitOn '/'
        else (cs.splitOn '/').modifyHead (List.cons c) := List.splitOnP_cons_eq_if_modifyHead c cs
    rw [cut, ih, step]
    by_cases slash : c = '/'
    · rw [if_pos slash, if_pos (beq_iff_eq.mpr slash)]
    · obtain ⟨piece, rest, first⟩ := List.exists_cons_of_ne_nil (List.splitOn_ne_nil '/' cs)
      rw [if_neg slash, if_neg (mt beq_iff_eq.mp slash), first]
      rfl

/-- What stands between the slashes of a text, empty pieces apart. -/
def between (t : String) : List String :=
  ((t.toList.splitOn '/').filter (· ≠ [])).map String.ofList

theorem pieces_eq_between (t : String) : pieces t = between t := by
  rw [pieces, between, cut_eq_splitOn]
  congr 2
  funext piece
  cases piece <;> rfl

theorem slash_notMem_cut {cs piece : List Char} (h : piece ∈ cut cs) : ∀ c ∈ piece, c ≠ '/' := by
  induction cs generalizing piece with
  | nil =>
    rw [List.mem_singleton.mp h]
    exact nofun
  | cons c cs ih =>
    rw [cut] at h
    split at h
    · rcases List.mem_cons.mp h with rfl | h
      · exact nofun
      · exact ih h
    · rename_i other
      split at h
      · rw [List.mem_singleton.mp h]
        exact List.forall_mem_singleton.mpr other
      · rename_i first rest cuts
        rcases List.mem_cons.mp h with rfl | h
        · exact List.forall_mem_cons.mpr ⟨other, ih (cuts ▸ List.mem_cons_self)⟩
        · exact ih (cuts ▸ List.mem_cons_of_mem first h)

theorem isSingle_of_mem_between (h : s ∈ between t) : Segment.isSingle s = true := by
  rw [← pieces_eq_between] at h
  obtain ⟨piece, kept, rfl⟩ := List.mem_map.mp h
  obtain ⟨cuts, some⟩ := List.mem_filter.mp kept
  rw [isSingle_iff, String.toList_ofList]
  exact ⟨by simpa using some, slash_notMem_cut cuts⟩

/-- Names are the segments of a path exactly when they are few and each one may be a segment. -/
theorem exists_segments_iff : (∃ p : Path, p.segments = names) ↔
    names.length ≤ 32 ∧ ∀ s ∈ names, Segment.isLegal s = true := by
  constructor
  · rintro ⟨p, rfl⟩
    exact ⟨p.shallow, List.all_eq_true.mp p.legal⟩
  · rintro ⟨shallow, legal⟩
    exact ⟨⟨names, List.all_eq_true.mpr legal, shallow⟩, rfl⟩

theorem ofSegments_eq_ok_iff : ofSegments input names = .ok p ↔ p.segments = names := by
  constructor
  · intro made
    unfold ofSegments at made
    split at made
    · split at made
      · cases made
        rfl
      · cases made
    · cases made
  · rintro rfl
    rw [ofSegments, dif_pos p.shallow, dif_pos p.legal]

theorem parse_eq_ok_iff : parse t = .ok p ↔ p.segments = between t := by
  rw [parse, ofSegments_eq_ok_iff, pieces_eq_between]

theorem child_eq_ok_iff : p.child s = .ok q ↔ q.segments = p.segments ++ [s] := by
  constructor
  · intro made
    unfold child at made
    split at made
    · split at made
      · split at made
        · cases made
          rfl
        · cases made
      · cases made
    · cases made
  · intro same
    obtain ⟨shallow, legal⟩ := exists_segments_iff.mp ⟨q, same⟩
    have name : Segment.isLegal s = true := legal s (List.mem_append_right _ (.head _))
    rw [Segment.isLegal, Bool.and_eq_true] at name
    rw [List.length_append, List.length_singleton] at shallow
    rw [child, dif_pos name.1, dif_pos name.2, dif_pos shallow]
    exact congrArg _ (eq_of_segments same.symm)

theorem descend_eq_ok_iff : p.descend names = .ok q ↔ q.segments = p.segments ++ names := by
  induction names generalizing p with
  | nil =>
    rw [descend, List.append_nil, Except.ok.injEq]
    exact ⟨fun same => same ▸ rfl, fun same => (eq_of_segments same).symm⟩
  | cons s names ih =>
    rw [descend, List.append_cons]
    constructor
    · intro made
      cases first : p.child s with
      | error e =>
        rw [first] at made
        cases made
      | ok r =>
        rw [first] at made
        rw [← child_eq_ok_iff.mp first]
        exact ih.mp made
    · intro same
      -- what is reached by the first name is a path, for the whole one goes on from there
      have way : (q.take (p.segments ++ [s]).length).segments = p.segments ++ [s] :=
        (congrArg (List.take _) same).trans List.take_left
      rw [child_eq_ok_iff.mpr way]
      exact ih.mpr (same.trans (congrArg (· ++ names) way.symm))

theorem text_injective : p.text = q.text ↔ p = q := by
  refine ⟨fun same => ?_, congrArg text⟩
  have read := parse_text q
  rw [← same, parse_text p] at read
  exact Except.ok.inj read

/-- A text is a path exactly when the pieces between its slashes are few and without barred
characters, and then they are its segments. Names that are gone down one by one make the same paths;
and every path is read from its text, which no other path has. -/
theorem parsed_exactly :
    (∀ t, (∃ p, parse t = .ok p) ↔
      (between t).length ≤ 32 ∧ ∀ s ∈ between t, ∀ c ∈ s.toList, ¬ Segment.Barred c)
    ∧ (∀ t p, parse t = .ok p ↔ p.segments = between t)
    ∧ (∀ t p, parse t = .ok p ↔ root.descend (between t) = .ok p)
    ∧ (∀ names p, root.descend names = .ok p ↔ p.segments = names)
    ∧ (∀ (p : Path) s q, p.child s = .ok q ↔ q.segments = p.segments ++ [s])
    ∧ (∀ p : Path, parse p.text = .ok p)
    ∧ ∀ p q : Path, p = q ↔ p.text = q.text := by
  have descended : ∀ names p, root.descend names = .ok p ↔ p.segments = names := fun _ _ =>
    descend_eq_ok_iff
  refine ⟨fun t => ?_, fun _ _ => parse_eq_ok_iff, fun _ _ => ?_, descended,
    fun _ _ _ => child_eq_ok_iff, parse_text, fun _ _ => text_injective.symm⟩
  · simp only [parse_eq_ok_iff, exists_segments_iff]
    refine and_congr_right fun _ => forall₂_congr fun s hs => ?_
    rw [Segment.isLegal, isSingle_of_mem_between hs, Bool.true_and, Segment.isClean_iff]
  · rw [parse_eq_ok_iff, descended]

/-- Slashes at the ends and repeated ones, the greatest depth and one piece more, and a character that
is barred by its number alone. -/
theorem parsed_at_limits :
    (∃ p, parse "//rooms//é 1/" = .ok p ∧ p.segments = ["rooms", "é 1"] ∧ p.text = "/rooms/é 1")
    ∧ (∃ p, parse (String.join (List.replicate 32 "/0")) = .ok p)
    ∧ (¬ ∃ p, parse (String.join (List.replicate 33 "/0")) = .ok p)
    ∧ (¬ ∃ p, parse "rooms/\x7f" = .ok p) := by
  obtain ⟨accepts, segments, -⟩ := parsed_exactly
  have pieces : between "//rooms//é 1/" = ["rooms", "é 1"] := by decide +kernel
  refine ⟨⟨⟨["rooms", "é 1"], by decide, by decide⟩, (segments _ _).mpr pieces.symm, rfl, ?_⟩, ?_,
    ?_, ?_⟩
  · decide +kernel
  · have pieces : between (String.join (List.replicate 32 "/0")) = List.replicate 32 "0" := by
      decide +kernel
    rw [accepts, pieces]
    refine ⟨by decide, ?_⟩
    simp [Segment.Barred]
  · have pieces : between (String.join (List.replicate 33 "/0")) = List.replicate 33 "0" := by
      decide +kernel
    rw [accepts, pieces]
    exact fun h => absurd h.1 (by decide)
  · have pieces : between "rooms/\x7f" = ["rooms", "\x7f"] := by decide +kernel
    rw [accepts, pieces]
    rintro ⟨_, clean⟩
    exact clean "\x7f" (.tail _ (.head _)) '\x7f' (by decide) (Or.inr (Or.inr (by decide)))

end Path

end LiveTree
