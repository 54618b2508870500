import LiveTree.Path.Basic

/-!
# Paths as text

Every path is parsed from its own text: the segments stand between the slashes, and since none is
empty or has a slash itself, cutting there gives them back.
-/

namespace LiveTree.Path

variable {piece : List Char} {segments : List String}

theorem cut_cons {c : Char} (hc : c ≠ '/') {cs : List Char} {rest : List (List Char)}
    (h : cut cs = piece :: rest) : cut (c :: cs) = (c :: piece) :: rest := by
  rw [cut, if_neg hc, h]

theorem cut_of_single (h : ∀ c ∈ piece, c ≠ '/') : cut piece = [piece] := by
  induction piece with
  | nil => rfl
  | cons c piece ih =>
    obtain ⟨hc, hcs⟩ := List.forall_mem_cons.mp h
    exact cut_cons hc (ih hcs)

theorem cut_append (h : ∀ c ∈ piece, c ≠ '/') (cs : List Char) :
    cut (piece ++ '/' :: cs) = piece :: cut cs := by
  induction piece with
  | nil => rfl
  | cons c piece ih =>
    obtain ⟨hc, hcs⟩ := List.forall_mem_cons.mp h
    exact cut_cons hc (ih hcs)

/-- Segments, each behind a slash. -/
def slashed (segments : List String) : List Char := segments.flatMap fun s => '/' :: s.toList

theorem cut_slashed (single : ∀ s ∈ segments, ∀ c ∈ s.toList, c ≠ '/')
    (h : ∀ c ∈ piece, c ≠ '/') :
    cut (piece ++ slashed segments) = piece :: segments.map String.toList := by
  induction segments generalizing piece with
  | nil =>
    rw [slashed, List.flatMap_nil, List.append_nil]
    exact cut_of_single h
  | cons s segments ih =>
    obtain ⟨hs, hrest⟩ := List.forall_mem_cons.mp single
    have rest := ih hrest hs
    rw [slashed, List.flatMap_cons, List.cons_append, cut_append h, List.map_cons]
    exact congrArg _ rest

theorem isSingle_iff {s : String} :
    Segment.isSingle s = true ↔ s.toList ≠ [] ∧ ∀ c ∈ s.toList, c ≠ '/' := by
  simp [Segment.isSingle]

theorem single_of_mem (p : Path) {s : String} (hs : s ∈ p.segments) :
    s.toList ≠ [] ∧ ∀ c ∈ s.toList, c ≠ '/' := by
  have legal := List.all_eq_true.mp p.legal s hs
  exact isSingle_iff.mp (Bool.and_eq_true_iff.mp legal).1

theorem pieces_text (p : Path) : pieces p.text = p.segments := by
  have nonempty : ∀ s ∈ p.segments, s.toList.isEmpty = false := fun s hs => by
    simpa using (p.single_of_mem hs).1
  unfold text
  split
  · rename_i root
    rw [List.isEmpty_iff.mp root]
    rfl
  · have chars : (String.join (p.segments.map ("/" ++ ·))).toList = slashed p.segments := by
      simp [String.toList_join, slashed, List.flatMap_map]
    have cuts : cut ([] ++ slashed p.segments) = [] :: p.segments.map String.toList :=
      cut_slashed (fun s hs => (p.single_of_mem hs).2) nofun
    rw [List.nil_append] at cuts
    have kept : (p.segments.map String.toList).filter (fun piece => !piece.isEmpty)
        = p.segments.map String.toList := by
      refine List.filter_eq_self.mpr fun cs hcs => ?_
      obtain ⟨s, hs, rfl⟩ := List.mem_map.mp hcs
      rw [nonempty s hs]
      rfl
    rw [pieces, chars, cuts, List.filter_cons_of_neg (by decide), kept, List.map_map]
    refine (List.map_congr_left fun s _ => ?_).trans (List.map_id p.segments)
    exact String.ofList_toList

/-- A path is parsed from its text. -/
theorem parse_text (p : Path) : parse p.text = .ok p := by
  rw [parse, pieces_text, ofSegments, dif_pos p.shallow, dif_pos p.legal]

end LiveTree.Path
