import Onelf.Lib.Bytes

/-! Files as byte images: positioned writes, and how much of an image they have rebuilt. -/

namespace Onelf.Lib

/-! ### Writing a file -/

/-- `pwrite`: a file written past its end is filled up with zeros, and writing nothing does
nothing. -/
def writeAt (file bytes : Bytes) (pos : Nat) : Bytes :=
  if bytes = [] then file
  else file.take pos ++ List.replicate (pos - file.length) 0 ++ bytes ++
    file.drop (pos + bytes.length)

/-- `ftruncate`. -/
def setLen (file : Bytes) (len : Nat) : Bytes :=
  file.take len ++ List.replicate (len - file.length) 0

@[simp] theorem writeAt_nil (file : Bytes) (pos : Nat) : writeAt file [] pos = file := rfl

@[simp] theorem length_setLen (file : Bytes) (len : Nat) : (setLen file len).length = len := by
  simp only [setLen, List.length_append, List.length_take, List.length_replicate]
  omega

theorem length_filled (file : Bytes) (pos : Nat) :
    (file.take pos ++ List.replicate (pos - file.length) 0).length = pos := by
  simp only [List.length_append, List.length_take, List.length_replicate]
  omega

theorem length_writeAt {file bytes : Bytes} {pos : Nat}
    (inside : pos + bytes.length ≤ file.length) :
    (writeAt file bytes pos).length = file.length := by
  rw [writeAt]
  split
  · rfl
  · rw [List.length_append, List.length_append, length_filled, List.length_drop]
    omega

theorem getElem?_writeAt {file bytes : Bytes} {pos : Nat} (inside : pos ≤ file.length) (i : Nat) :
    (writeAt file bytes pos)[i]? =
      if pos ≤ i ∧ i < pos + bytes.length then bytes[i - pos]? else file[i]? := by
  rw [writeAt]
  split
  · next empty =>
      have nowhere : ¬ (pos ≤ i ∧ i < pos + bytes.length) := by
        rw [empty, List.length_nil]
        omega
      rw [if_neg nowhere]
  · have full : pos - file.length = 0 := by omega
    rw [full, List.replicate_zero, List.append_nil]
    by_cases before : i < pos
    · have outside : ¬ (pos ≤ i ∧ i < pos + bytes.length) := by omega
      have early : i < (file.take pos).length := by
        rw [List.length_take]
        omega
      rw [if_neg outside, List.append_assoc, List.getElem?_append_left early,
        List.getElem?_take_of_lt before]
    · have start : (file.take pos).length = pos := by
        rw [List.length_take]
        omega
      rw [List.append_assoc, List.getElem?_append_right (by omega), start]
      by_cases within : i < pos + bytes.length
      · rw [if_pos ⟨by omega, within⟩, List.getElem?_append_left (by omega)]
      · rw [if_neg (by omega), List.getElem?_append_right (by omega), List.getElem?_drop]
        congr 1
        omega

/-- Two runs written one after the other are one run. -/
theorem writeAt_writeAt (file first second : Bytes) (pos : Nat) :
    writeAt (writeAt file first pos) second (pos + first.length) =
      writeAt file (first ++ second) pos := by
  by_cases noFirst : first = []
  · simp [noFirst]
  · by_cases noSecond : second = []
    · simp [noSecond]
    · have whole : first ++ second ≠ [] := by simp [noFirst]
      rw [writeAt, if_neg noSecond, writeAt, if_neg noFirst, writeAt, if_neg whole]
      have lead : (file.take pos ++ List.replicate (pos - file.length) 0 ++ first).length =
          pos + first.length := by
        rw [List.length_append, length_filled]
      have reached : pos + first.length - (file.take pos ++
          List.replicate (pos - file.length) 0 ++ first ++
          file.drop (pos + first.length)).length = 0 := by
        rw [List.length_append, lead]
        omega
      have tail : (file.take pos ++ List.replicate (pos - file.length) 0 ++ first ++
          file.drop (pos + first.length)).drop (pos + first.length + second.length) =
          file.drop (pos + (first ++ second).length) := by
        rw [List.drop_append, List.drop_eq_nil_of_le (by omega), lead, List.nil_append,
          List.drop_drop, List.length_append]
        congr 1
        omega
      rw [reached, tail, List.take_left' lead]
      simp only [List.replicate_zero, List.append_nil, List.append_assoc]

/-! ### Copying a stream in chunks -/

/-- `len` bytes of a stream written from `dst` on, at most `chunk` at a time; `none` when the
stream ends first. -/
def transfer (chunk : Nat) : Nat → Bytes → Bytes → Nat → Nat → Option Bytes
  | 0, _, file, _, len => if len = 0 then some file else none
  | fuel + 1, stream, file, dst, len =>
      if len = 0 then some file
      else if stream.length < min len chunk then none
      else transfer chunk fuel (stream.drop (min len chunk))
        (writeAt file (stream.take (min len chunk)) dst) (dst + min len chunk)
        (len - min len chunk)

/-- However it is cut, a transfer is one write of the stream's first bytes. -/
theorem transfer_eq {chunk : Nat} (positive : 0 < chunk) {fuel len : Nat} (enough : len ≤ fuel)
    (stream file : Bytes) (dst : Nat) :
    transfer chunk fuel stream file dst len =
      if stream.length < len then none else some (writeAt file (stream.take len) dst) := by
  induction fuel generalizing stream file dst len with
  | zero =>
      have nothing : len = 0 := by omega
      simp [transfer, nothing]
  | succ fuel ih =>
      rw [transfer]
      by_cases nothing : len = 0
      · simp [nothing]
      · rw [if_neg nothing]
        by_cases short : stream.length < min len chunk
        · rw [if_pos short, if_pos (by omega)]
        · rw [if_neg short, ih (by omega)]
          have taken : (stream.take (min len chunk)).length = min len chunk := by
            rw [List.length_take]
            omega
          have joined : stream.take (min len chunk) ++
              (stream.drop (min len chunk)).take (len - min len chunk) = stream.take len := by
            rw [← List.take_add]
            congr 1
            omega
          have step := writeAt_writeAt file (stream.take (min len chunk))
            ((stream.drop (min len chunk)).take (len - min len chunk)) dst
          rw [taken, joined] at step
          rw [step, List.length_drop]
          by_cases ends : stream.length < len
          · rw [if_pos ends, if_pos (by omega)]
          · rw [if_neg ends, if_neg (by omega)]

/-! ### An image rebuilt piece by piece -/

/-- `file` has the length of `image` and agrees with it wherever `known` says. -/
structure Holds (image : Bytes) (known : Nat → Prop) (file : Bytes) : Prop where
  length : file.length = image.length
  agrees : ∀ i, known i → file[i]? = image[i]?

/-- The positions of `len` bytes from `start`. -/
def within (start len i : Nat) : Prop := start ≤ i ∧ i < start + len

theorem Holds.weaken {image file : Bytes} {known less : Nat → Prop} (holds : Holds image known file)
    (fewer : ∀ i, less i → known i) : Holds image less file :=
  ⟨holds.length, fun i member => holds.agrees i (fewer i member)⟩

/-- Writing a piece of the image where it belongs. -/
theorem Holds.write {image file : Bytes} {known : Nat → Prop} (holds : Holds image known file)
    {start len : Nat} (inside : start + len ≤ image.length) :
    Holds image (fun i => known i ∨ within start len i)
      (writeAt file (slice image start len) start) := by
  have size := length_slice inside
  have length := holds.length
  constructor
  · rw [length_writeAt (by omega), length]
  · intro i member
    rw [getElem?_writeAt (by omega), size, getElem?_slice]
    by_cases here : start ≤ i ∧ i < start + len
    · rw [if_pos here, if_pos (by omega)]
      congr 1
      omega
    · rw [if_neg here]
      rcases member with before | now
      · exact holds.agrees i before
      · exact absurd now here

/-- Writing anything over positions that are not known yet. -/
theorem Holds.scribble {image file bytes : Bytes} {known : Nat → Prop}
    (holds : Holds image known file) {pos : Nat} (inside : pos + bytes.length ≤ image.length)
    (apart : ∀ i, known i → ¬ within pos bytes.length i) :
    Holds image known (writeAt file bytes pos) := by
  have length := holds.length
  constructor
  · rw [length_writeAt (by omega), length]
  · intro i member
    have outside : ¬ (pos ≤ i ∧ i < pos + bytes.length) := apart i member
    rw [getElem?_writeAt (by omega), if_neg outside]
    exact holds.agrees i member

theorem Holds.complete {image file : Bytes} {known : Nat → Prop} (holds : Holds image known file)
    (all : ∀ i, i < image.length → known i) : file = image := by
  apply List.ext_getElem?
  intro i
  by_cases inside : i < image.length
  · exact holds.agrees i (all i inside)
  · have length := holds.length
    rw [List.getElem?_eq_none (by omega), List.getElem?_eq_none (by omega)]

end Onelf.Lib
