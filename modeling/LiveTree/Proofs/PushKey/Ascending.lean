import LiveTree.Proofs.PushKey.Digits
import Mathlib.Data.List.Chain

/-!
# Keys ascend

A key that comes later is greater: while the time stands its counter is greater, and once the counter
runs out the time moves on. The time of a key is the latest one that was given, or ahead of it by as
many milliseconds as the counter has run out.
-/

namespace LiveTree.PushKey

namespace Generator
variable {g g' : Generator} {now : Nat}

/-- The time of the last key. -/
def time (g : Generator) : Nat := g.lastTime.getD 0

theorem time_eq {last : Nat} (h : g.lastTime = some last) : g.time = last := by
  rw [time, h, Option.getD_some]

/-- The number that the last key stands for. -/
def stamp (g : Generator) : Nat := g.time * 64 ^ counterLetters + number g.counter

/-- True when the counter runs out with a key for the given time. -/
def runsOut (g : Generator) (now : Nat) : Bool :=
  g.lastTime.any fun last => decide (now ≤ last) && (increment g.counter.reverse).2

/-- What a key does: it counts up, or moves the time on by one, or takes the time that is given. -/
inductive Step (g : Generator) (now : Nat) (g' : Generator) : Prop where
  | counted {last : Nat} (stood : g.lastTime = some last) (behind : now ≤ last)
      (kept : g.runsOut now = false) (time : g'.lastTime = some last)
      (counter : number g'.counter = number g.counter + 1)
  | borrowed {last : Nat} (stood : g.lastTime = some last) (behind : now ≤ last)
      (out : g.runsOut now = true) (time : g'.lastTime = some (last + 1))
  | moved (ahead : ∀ last, g.lastTime = some last → last < now) (kept : g.runsOut now = false)
      (time : g'.lastTime = some now)

theorem step_advance (g : Generator) (now : Nat) : Step g now (g.advance now) := by
  unfold advance
  cases stood : g.lastTime with
  | none =>
    refine .moved (by rw [stood]; exact nofun) ?_ rfl
    rw [runsOut, stood]
    rfl
  | some last =>
    by_cases behind : now ≤ last
    · have runs : g.runsOut now = (increment g.counter.reverse).2 := by
        rw [runsOut, stood, Option.any_some, decide_eq_true behind, Bool.true_and]
      simp only [if_pos behind]
      cases wrapped : (increment g.counter.reverse).2 with
      | true => exact .borrowed stood behind (runs.trans wrapped) rfl
      | false =>
        refine .counted stood behind (runs.trans wrapped) rfl ?_
        have up := number_increment wrapped
        rw [List.reverse_reverse] at up
        exact up
    · simp only [if_neg behind]
      refine .moved (fun t same => ?_) ?_ rfl
      · rw [← Option.some.inj (stood.symm.trans same)]
        exact Nat.lt_of_not_le behind
      · rw [runsOut, stood, Option.any_some, decide_eq_false behind, Bool.false_and]

theorem length_restart (g : Generator) (time : Nat) :
    (g.restart time).counter.length = counterLetters := by
  simp [restart, Source.draw]

theorem length_advance (h : g.counter.length = counterLetters) (now : Nat) :
    (g.advance now).counter.length = counterLetters := by
  unfold advance
  split
  · exact length_restart g now
  · split
    · dsimp only
      split
      · exact length_restart _ _
      · rw [List.length_reverse, length_increment, List.length_reverse, h]
    · exact length_restart g now

theorem Step.stamp_lt (step : Step g now g') (sized : g.counter.length = counterLetters)
    (started : g.lastTime.isSome) : g.stamp < g'.stamp := by
  have below := number_lt g.counter
  rw [sized] at below
  have later {time : Nat} (moved : g'.lastTime = some time) (lt : g.time < time) :
      g.stamp < g'.stamp := by
    have room : (g.time + 1) * 64 ^ counterLetters ≤ time * 64 ^ counterLetters :=
      Nat.mul_le_mul_right _ lt
    rw [Nat.add_mul, Nat.one_mul] at room
    rw [stamp, stamp, time_eq moved]
    omega
  cases step with
  | counted stood _ _ time counter =>
    rw [stamp, stamp, time_eq stood, time_eq time, counter]
    exact Nat.lt_succ_self _
  | borrowed stood _ _ time =>
    refine later time ?_
    rw [time_eq stood]
    exact Nat.lt_succ_self _
  | moved ahead _ time =>
    refine later time ?_
    obtain ⟨last, stood⟩ := Option.isSome_iff_exists.mp started
    rw [time_eq stood]
    exact ahead last stood

theorem Step.isSome (step : Step g now g') : g'.lastTime.isSome := by
  cases step with
  | counted _ _ _ time | borrowed _ _ _ time | moved _ _ time =>
    rw [time]
    rfl

/-- The time is the latest that was given, or ahead of it by the number of times that the counter has
run out. -/
structure Timely (latest wraps : Nat) (g : Generator) : Prop where
  ge : latest ≤ g.time
  le : g.time ≤ latest + wraps

theorem Timely.step {latest wraps : Nat} (h : Timely latest wraps g) (step : Step g now g') :
    Timely (max latest now) (wraps + (g.runsOut now).toNat) g' := by
  obtain ⟨ge, le⟩ := h
  cases step with
  | counted stood behind kept time =>
    rw [time_eq stood] at ge le
    rw [kept]
    refine ⟨?_, ?_⟩ <;> rw [time_eq time]
    · omega
    · exact Nat.le_trans le (Nat.add_le_add_right (Nat.le_max_left _ _) _)
  | borrowed stood behind out time =>
    rw [time_eq stood] at ge le
    rw [out, Bool.toNat_true]
    refine ⟨?_, ?_⟩ <;> rw [time_eq time] <;> omega
  | moved ahead kept time =>
    have before : latest ≤ now := by
      cases stood : g.lastTime with
      | none =>
        rw [Generator.time, stood, Option.getD_none] at ge
        omega
      | some last =>
        have lt := ahead last stood
        rw [time_eq stood] at ge
        omega
    refine ⟨?_, ?_⟩ <;> rw [time_eq time] <;> omega

end Generator

theorem key_eq (g : Generator) : g.key = text (timeDigits g.time ++ g.counter) := rfl

theorem toList_text (digits : List (Fin 64)) : (text digits).toList = digits.map letter :=
  String.toList_ofList

theorem length_text (digits : List (Fin 64)) : (text digits).length = digits.length := by
  rw [text, String.length_ofList, List.length_map]

theorem mem_alphabet_of_mem {digits : List (Fin 64)} {c : Char} (h : c ∈ (text digits).toList) :
    c ∈ alphabet := by
  rw [toList_text] at h
  obtain ⟨d, _, rfl⟩ := List.mem_map.mp h
  exact letter_mem_alphabet d

theorem mapM_idxOf?_letters (digits : List (Fin 64)) :
    (digits.map letter).mapM (fun c => alphabet.idxOf? c) = some (digits.map Fin.val) := by
  induction digits with
  | nil => rfl
  | cons d rest ih => simp [idxOf?_letter, ih]

theorem time?_text {front back : List (Fin 64)} (h : front.length = timeLetters) :
    time? (text (front ++ back)) = some (number front) := by
  have long : ¬ (text (front ++ back)).utf8ByteSize < timeLetters := by
    have bytes := congrArg List.length (ofText_text (front ++ back))
    rw [List.length_map, List.length_append, h] at bytes
    change (text (front ++ back)).utf8ByteSize = _ at bytes
    omega
  have head : (text (front ++ back)).toList.take timeLetters = front.map letter := by
    rw [toList_text, List.map_append, ← h, List.take_left' (List.length_map ..)]
  rw [time?, if_neg long, head, mapM_idxOf?_letters, Option.map_some, List.foldl_map]
  rfl

theorem Generator.time?_key {g : Generator} (h : g.time < 64 ^ timeLetters) :
    time? g.key = some g.time := by
  rw [key_eq, time?_text (length_timeDigits g.time), number_timeDigits h]

theorem Generator.length_digits {g : Generator} (h : g.counter.length = counterLetters) :
    (timeDigits g.time ++ g.counter).length = length := by
  rw [List.length_append, length_timeDigits, h]
  rfl

theorem Generator.key_lt {g g' : Generator} (h : g.counter.length = counterLetters)
    (h' : g'.counter.length = counterLetters) (time : g.time < 64 ^ timeLetters)
    (time' : g'.time < 64 ^ timeLetters) (lt : g.stamp < g'.stamp) :
    Bytes.ofText g.key < Bytes.ofText g'.key := by
  rw [key_eq, key_eq]
  apply text_lt
  · rw [length_digits h, length_digits h']
  · rw [number_append, number_append, number_timeDigits time, number_timeDigits time', h, h']
    exact lt

/-- The latest of some times. -/
def latest (times : List Nat) : Nat := times.foldr max 0

theorem latest_append (a b : List Nat) : latest (a ++ b) = max (latest a) (latest b) := by
  induction a with
  | nil => exact (Nat.zero_max (latest b)).symm
  | cons now a ih =>
    change max now (latest (a ++ b)) = max (max now (latest a)) (latest b)
    rw [ih, Nat.max_assoc]

theorem latest_take (times : List Nat) (i : Nat) : latest (times.take i) ≤ latest times := by
  have parts := latest_append (times.take i) (times.drop i)
  rw [List.take_append_drop] at parts
  rw [parts]
  exact Nat.le_max_left _ _

namespace Generator

/-- The keys for some times. -/
def keys (g : Generator) : List Nat → List String
  | [] => []
  | now :: times => (g.generate now).1 :: (g.generate now).2.keys times

/-- The generators that have made them. -/
def run (g : Generator) : List Nat → List Generator
  | [] => []
  | now :: times => g.advance now :: (g.advance now).run times

/-- How often the counter runs out. -/
def wraps (g : Generator) : List Nat → Nat
  | [] => 0
  | now :: times => (g.runsOut now).toNat + (g.advance now).wraps times

variable {g g' : Generator} {times : List Nat}

theorem keys_eq (g : Generator) (times : List Nat) : g.keys times = (g.run times).map key := by
  induction times generalizing g with
  | nil => rfl
  | cons now times ih => exact congrArg (List.cons _) (ih (g.advance now))

theorem length_run (g : Generator) (times : List Nat) : (g.run times).length = times.length := by
  induction times generalizing g with
  | nil => rfl
  | cons now times ih => exact congrArg Nat.succ (ih (g.advance now))

theorem wraps_le (g : Generator) (times : List Nat) : g.wraps times ≤ times.length := by
  induction times generalizing g with
  | nil => exact Nat.le_refl 0
  | cons now times ih =>
    have one := Bool.toNat_le (g.runsOut now)
    have rest := ih (g.advance now)
    rw [wraps, List.length_cons]
    omega

theorem length_of_mem_run (h : g.counter.length = counterLetters) (mem : g' ∈ g.run times) :
    g'.counter.length = counterLetters := by
  induction times generalizing g with
  | nil => cases mem
  | cons now times ih =>
    rcases List.mem_cons.mp mem with rfl | mem
    · exact length_advance h now
    · exact ih (length_advance h now) mem

/-- What each key adds to the bounds of the time. -/
theorem timely_run {late out : Nat} (h : Timely late out g) {i : Nat}
    (made : (g.run times)[i]? = some g') :
    Timely (max late (latest (times.take (i + 1)))) (out + g.wraps (times.take (i + 1))) g' := by
  induction times generalizing g late out i with
  | nil => cases made
  | cons now times ih =>
    have next := h.step (step_advance g now)
    cases i with
    | zero =>
      cases made
      change Timely (max late (max now 0)) (out + (g.runsOut now).toNat) (g.advance now)
      rw [Nat.max_zero]
      exact next
    | succ i =>
      have later := ih next made
      rw [Nat.max_assoc, Nat.add_assoc] at later
      exact later

theorem chain_run (h : g.counter.length = counterLetters) (started : g.lastTime.isSome) :
    ((g :: g.run times).map stamp).IsChain (· < ·) := by
  induction times generalizing g with
  | nil => exact List.isChain_singleton _
  | cons now times ih =>
    have step := step_advance g now
    exact .cons_cons (step.stamp_lt h started) (ih (length_advance h now) step.isSome)

theorem pairwise_run (h : g.counter.length = counterLetters) :
    (g.run times).Pairwise (fun a b => a.stamp < b.stamp) := by
  cases times with
  | nil => exact .nil
  | cons now times =>
    have step := step_advance g now
    exact List.pairwise_map.mp
      (List.isChain_iff_pairwise.mp (chain_run (length_advance h now) step.isSome))

theorem timely_ofSource (source : Source) : Timely 0 0 (ofSource source) :=
  ⟨Nat.le_refl 0, Nat.le_refl 0⟩

theorem length_ofSource (source : Source) :
    (ofSource source).counter.length = counterLetters := List.length_replicate

theorem time_lt (source : Source) (room : latest times + times.length < 64 ^ timeLetters)
    (mem : g' ∈ (ofSource source).run times) : g'.time < 64 ^ timeLetters := by
  obtain ⟨i, made⟩ := List.mem_iff_getElem?.mp mem
  have bound := (timely_run (timely_ofSource source) made).le
  have below := latest_take times (i + 1)
  have often := wraps_le (ofSource source) (times.take (i + 1))
  have few : (times.take (i + 1)).length ≤ times.length := List.length_take_le' ..
  omega

theorem isSpent_eq_false (h : g.time < 64 ^ timeLetters) : g.isSpent = false := by
  unfold isSpent
  cases stood : g.lastTime with
  | none => rfl
  | some last =>
    rw [time_eq stood] at h
    rw [Option.any_some]
    apply decide_eq_false
    have far : 64 ^ timeLetters ≤ Clock.lastMilli := by decide +kernel
    omega

/-- The keys of one generator, whatever digits it draws and whatever times it is given, ascend as
byte strings. All of them have their length and their letters. The time of a key is the latest one
that was given so far, or ahead of it by no more than the counter has run out so far; no time comes
near the last millisecond. -/
theorem generated_keys_ascend (source : Source) (times : List Nat)
    (room : latest times + times.length < 2 ^ 48) :
    ((ofSource source).keys times).length = times.length
    ∧ (∀ k ∈ (ofSource source).keys times, k.length = 20 ∧ ∀ c ∈ k.toList, c ∈ alphabet)
    ∧ ((ofSource source).keys times).Pairwise (fun a b => Bytes.ofText a < Bytes.ofText b)
    ∧ (∀ i k, ((ofSource source).keys times)[i]? = some k → ∃ t, time? k = some t
      ∧ latest (times.take (i + 1)) ≤ t
      ∧ t ≤ latest (times.take (i + 1)) + (ofSource source).wraps (times.take (i + 1)))
    ∧ ∀ g ∈ (ofSource source).run times, g.time < 2 ^ 48 ∧ g.isSpent = false := by
  have sized := length_ofSource source
  rw [keys_eq]
  refine ⟨?_, ?_, ?_, ?_, ?_⟩
  · rw [List.length_map, length_run]
  · intro k hk
    obtain ⟨g, mem, rfl⟩ := List.mem_map.mp hk
    refine ⟨(length_text _).trans (length_digits (length_of_mem_run sized mem)), fun c hc => ?_⟩
    exact mem_alphabet_of_mem hc
  · rw [List.pairwise_map]
    refine (pairwise_run sized).imp_of_mem fun a b lt => ?_
    exact key_lt (length_of_mem_run sized a) (length_of_mem_run sized b) (time_lt source room a)
      (time_lt source room b) lt
  · intro i k made
    rw [List.getElem?_map] at made
    obtain ⟨g, found, rfl⟩ := Option.map_eq_some_iff.mp made
    have bounds := timely_run (timely_ofSource source) found
    rw [Nat.zero_max, Nat.zero_add] at bounds
    have said := time?_key (time_lt source room (List.mem_of_getElem? found))
    exact ⟨g.time, said, bounds.ge, bounds.le⟩
  · intro g mem
    have bound := time_lt source room mem
    exact ⟨bound, isSpent_eq_false bound⟩

/-- Every counter starts at its end. -/
def brimming : Source := ⟨fun _ => Fin.last 63, 0⟩

/-- Every key but the first moves the time on, and the clock does not catch up with it. -/
theorem brimming_ascends : ((ofSource brimming).keys [5, 5, 3, 6]).Pairwise
      (fun a b => Bytes.ofText a < Bytes.ofText b)
    ∧ ((ofSource brimming).keys [5, 5, 3, 6]).map time? = [some 5, some 6, some 7, some 8]
    ∧ (ofSource brimming).wraps [5, 5, 3, 6] = 3 := by
  obtain ⟨_, _, ascend, _⟩ := generated_keys_ascend brimming [5, 5, 3, 6] (by decide)
  exact ⟨ascend, by decide +kernel, by decide +kernel⟩

end Generator

end LiveTree.PushKey
