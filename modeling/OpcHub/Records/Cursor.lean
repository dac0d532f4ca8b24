import Mathlib.Algebra.Order.Ring.Nat
import OpcHub.Records.Framing

/-! Frames over bytes, one after the other. A frame the bytes hold is read the
same whatever follows it, and so is a stop that is no torn frame: a reader that
fetches a file in windows sees what one that holds all of it does. A frame cut
short, and then perhaps followed by zero bytes, is never taken for another
field's. -/

namespace OpcHub.Records

open List Option UInt8

/-- A varint of at most `fuel` bytes, with the bytes it takes. -/
def readVarint : (fuel : ℕ) → Bytes → Option (ℕ × ℕ)
  | 0, _ => none
  | _ + 1, [] => none
  | fuel + 1, b :: bytes =>
    if b.toNat < 128 then some (b.toNat, 1)
    else (readVarint fuel bytes).map fun (value, size) => (b.toNat - 128 + 128 * value, size + 1)

/-- A varint's low 32 bits; up to ten bytes are read for them. -/
def readVarint32 (bytes : Bytes) : Option (ℕ × ℕ) :=
  (readVarint 10 bytes).map fun (value, size) => (value % 4294967296, size)

def varintSize32 (value : ℕ) : ℕ := (writeVarint 5 value).length

/-- One frame as the file holds it. -/
structure Raw where
  field : ℕ
  /-- Tag through body. -/
  frame : Bytes
  body : Bytes
  deriving DecidableEq, Repr

/-- Why no frame is read, and for one cut short the bytes that complete it at least. -/
structure Stopped where
  stop : EStop
  needed : ℕ := 0
  deriving DecidableEq, Repr

namespace Cursor

/-- A varint the bytes end inside is torn, needing at least one more; one they hold the widest form of
is bad. -/
def cut (remaining width : ℕ) : Stopped :=
  if width ≤ remaining then ⟨.badLength, 0⟩ else ⟨.length, remaining + 1⟩

/-- A frame's field, the bytes of its tag and length, and its length. -/
structure Head where
  field : ℕ
  size : ℕ
  length : ℕ

def head (bytes : Bytes) : Except Stopped Head :=
  match bytes with
  | [] => .error ⟨.end, 0⟩
  | b :: _ =>
    if b = 0 then .error ⟨.empty, 0⟩
    else
      match readVarint32 bytes with
      | none => .error (cut bytes.length 5)
      | some (tag, tagSize) =>
        -- padded: nothing the layer writes
        if tagSize ≠ varintSize32 tag then .error ⟨.badLength, 0⟩
        else if tag / 8 = 0 ∨ tag % 8 ≠ 2 then .error ⟨.tag, 0⟩
        else
          match readVarint32 (bytes.drop tagSize) with
          | none => .error (cut bytes.length (tagSize + 5))
          | some (length, lengthSize) =>
            if lengthSize ≠ varintSize32 length ∨ maxFrameBytes < tagSize + lengthSize + length then
              .error ⟨.badLength, 0⟩
            else .ok ⟨tag / 8, tagSize + lengthSize, length⟩

/-- The first frame of the bytes. -/
def next (bytes : Bytes) : Except Stopped Raw :=
  match head bytes with
  | .error e => .error e
  | .ok h =>
    if bytes.length < h.size + h.length then .error ⟨.length, h.size + h.length⟩
    else .ok ⟨h.field, bytes.take (h.size + h.length), (bytes.drop h.size).take h.length⟩

end Cursor

section Varint

variable {fuel width value k : ℕ} {bytes more : Bytes}

variable {x : ℕ × ℕ}

theorem readVarint_append (h : readVarint fuel bytes = some x) : readVarint fuel (bytes ++ more) = some x := by
  fun_induction readVarint fuel bytes generalizing x with
  | case1 | case2 => cases h
  | case3 fuel b bytes hb => simpa [readVarint, hb] using h
  | case4 fuel b bytes hb ih =>
    obtain ⟨y, hy, rfl⟩ := map_eq_some_iff.mp h
    simp [readVarint, hb, ih hy]

theorem readVarint_size_le (h : readVarint fuel bytes = some x) : 0 < x.2 ∧ x.2 ≤ bytes.length := by
  fun_induction readVarint fuel bytes generalizing x with
  | case1 | case2 => cases h
  | case3 =>
    cases h
    simp
  | case4 fuel b bytes hb ih =>
    obtain ⟨y, hy, rfl⟩ := map_eq_some_iff.mp h
    have := ih hy
    simp only [length_cons]
    omega

theorem length_lt_of_readVarint_append (hnone : readVarint fuel bytes = none)
    (h : readVarint fuel (bytes ++ more) = some x) : bytes.length < x.2 := by
  fun_induction readVarint fuel bytes generalizing x with
  | case1 => cases h
  | case2 => exact (readVarint_size_le h).1
  | case3 => cases hnone
  | case4 fuel b bytes hb ih =>
    simp only [cons_append, readVarint, hb, if_false] at h
    obtain ⟨y, hy, rfl⟩ := map_eq_some_iff.mp h
    exact Nat.succ_lt_succ (ih (map_eq_none_iff.mp hnone) hy)

theorem div_lt_pow (h : value < 128 ^ (width + 1)) : value / 128 < 128 ^ width := by
  rw [Nat.div_lt_iff_lt_mul (by decide)]
  rwa [Nat.pow_succ] at h

theorem writeVarint_length_le (width value : ℕ) : (writeVarint width value).length ≤ width := by
  fun_induction writeVarint width value with
  | case1 => simp
  | case2 => simp
  | case3 width value hbig ih =>
    simp only [length_cons]
    omega

theorem writeVarint_length_le_of_lt (width : ℕ) (hk : 0 < k) (h : value < 128 ^ k) :
    (writeVarint width value).length ≤ k := by
  fun_induction writeVarint width value generalizing k with
  | case1 => simp
  | case2 => exact hk
  | case3 width value hbig ih =>
    obtain ⟨k, rfl⟩ := Nat.exists_eq_succ_of_ne_zero hk.ne'
    have hpos : 0 < k := by
      by_contra hzero
      obtain rfl : k = 0 := by omega
      omega
    exact Nat.succ_le_succ (ih hpos (div_lt_pow h))

theorem toNat_last (h : value < 128) : (ofNat value).toNat = value := by
  rw [toNat_ofNat']
  omega

theorem toNat_continued (value : ℕ) : (ofNat (value % 128 + 128)).toNat = value % 128 + 128 := by
  rw [toNat_ofNat']
  omega

theorem readVarint_write (hwidth : 0 < width) (hvalue : value < 128 ^ width) (hfuel : width ≤ fuel) :
    readVarint fuel (writeVarint width value ++ more) = some (value, (writeVarint width value).length) := by
  fun_induction writeVarint width value generalizing fuel with
  | case1 => exact absurd hwidth (Nat.lt_irrefl _)
  | case2 width value hsmall =>
    obtain ⟨fuel, rfl⟩ := Nat.exists_eq_add_of_le' hfuel
    simp [readVarint, toNat_last hsmall, hsmall]
  | case3 width value hbig ih =>
    obtain ⟨fuel, rfl⟩ := Nat.exists_eq_add_of_le' (Nat.le_add_left 1 width |>.trans hfuel)
    have hpos : 0 < width := by
      by_contra hzero
      obtain rfl : width = 0 := by omega
      omega
    have hread := ih hpos (div_lt_pow hvalue) (Nat.le_of_succ_le_succ hfuel)
    simp only [cons_append, readVarint, toNat_continued, hread, map_some, length_cons]
    rw [if_neg (by omega), Nat.add_sub_cancel, Nat.mod_add_div]

theorem readVarint_take (hk : k < (writeVarint width value).length) :
    readVarint fuel ((writeVarint width value).take k) = none := by
  fun_induction writeVarint width value generalizing fuel k with
  | case1 => cases hk
  | case2 =>
    obtain rfl : k = 0 := by simpa using hk
    cases fuel <;> rfl
  | case3 width value hbig ih =>
    cases k with
    | zero => cases fuel <;> rfl
    | succ k =>
      cases fuel with
      | zero => rfl
      | succ fuel =>
        simp only [take_succ_cons, readVarint, toNat_continued]
        rw [if_neg (by omega), ih (by simpa using hk)]
        rfl

theorem readVarint_take_zero (hk : k < (writeVarint width value).length) (hfuel : k < fuel) : ∃ v, v < 128 ^ k ∧
    readVarint fuel ((writeVarint width value).take k ++ 0 :: more) = some (v, k + 1) := by
  obtain ⟨fuel, rfl⟩ := Nat.exists_eq_add_of_le' (Nat.one_le_of_lt hfuel)
  fun_induction writeVarint width value generalizing fuel k with
  | case1 => cases hk
  | case2 =>
    obtain rfl : k = 0 := by simpa using hk
    exact ⟨0, by simp, by simp [readVarint]⟩
  | case3 width value hbig ih =>
    cases k with
    | zero => exact ⟨0, by simp, by simp [readVarint]⟩
    | succ k =>
      obtain ⟨fuel, rfl⟩ := Nat.exists_eq_add_of_le' (Nat.one_le_of_lt (Nat.lt_of_succ_lt_succ hfuel))
      obtain ⟨v, hv, hread⟩ := ih (by simpa using hk) fuel (by omega)
      refine ⟨value % 128 + 128 * v, ?_, ?_⟩
      · omega
      · rw [take_succ_cons, cons_append, readVarint, toNat_continued, hread, if_neg (by omega), map_some,
          Nat.add_sub_cancel]

theorem readVarint32_write (hvalue : value < 4294967296) :
    readVarint32 (writeVarint 5 value ++ more) = some (value, varintSize32 value) := by
  rw [readVarint32, readVarint_write (by decide) (by omega) (by decide), map_some]
  simp only [Nat.mod_eq_of_lt hvalue, varintSize32]

theorem readVarint32_append (h : readVarint32 bytes = some x) : readVarint32 (bytes ++ more) = some x := by
  obtain ⟨y, hy, rfl⟩ := map_eq_some_iff.mp h
  rw [readVarint32, readVarint_append hy]
  rfl

theorem varintSize32_le (value : ℕ) : varintSize32 value ≤ 5 := writeVarint_length_le 5 value

theorem varintSize32_pos (value : ℕ) : 0 < varintSize32 value := by
  unfold varintSize32 writeVarint
  split <;> simp

theorem padded {v : ℕ} (hk : 0 < k) (hv : v < 128 ^ k) : k + 1 ≠ varintSize32 (v % 4294967296) := by
  have := writeVarint_length_le_of_lt 5 hk ((Nat.mod_le v 4294967296).trans_lt hv)
  unfold varintSize32
  omega

end Varint

namespace Cursor

variable {bytes more : Bytes}

variable {h : Head} {e : Stopped}

theorem head_eq_ok_iff : head bytes = .ok h ↔
    bytes.head? ≠ some 0 ∧ ∃ tag tagSize length lengthSize, readVarint32 bytes = some (tag, tagSize) ∧
      tagSize = varintSize32 tag ∧ tag / 8 ≠ 0 ∧ tag % 8 = 2 ∧
      readVarint32 (bytes.drop tagSize) = some (length, lengthSize) ∧ lengthSize = varintSize32 length ∧
      tagSize + lengthSize + length ≤ maxFrameBytes ∧ h = ⟨tag / 8, tagSize + lengthSize, length⟩ := by
  constructor
  · intro hh
    unfold head at hh
    grind
  · rintro ⟨hb, tag, tagSize, length, lengthSize, htag, hsize, hfield, htype, hlength, hlsize, hmax, rfl⟩
    unfold head
    split
    · simp [readVarint32, readVarint] at htag
    · rw [if_neg (by simpa using hb), htag]
      dsimp only
      rw [if_neg (not_not.mpr hsize), if_neg (by omega), hlength]
      dsimp only
      rw [if_neg (by omega)]

theorem readVarint32_size_le {x : ℕ × ℕ} (h : readVarint32 bytes = some x) : 0 < x.2 ∧ x.2 ≤ bytes.length := by
  obtain ⟨⟨value, size⟩, hy, rfl⟩ := map_eq_some_iff.mp h
  have hle := readVarint_size_le hy
  exact hle

theorem length_lt_of_readVarint32_append {x : ℕ × ℕ} (hnone : readVarint32 bytes = none)
    (h : readVarint32 (bytes ++ more) = some x) : bytes.length < x.2 := by
  obtain ⟨⟨value, size⟩, hy, rfl⟩ := map_eq_some_iff.mp h
  have hlt := length_lt_of_readVarint_append (map_eq_none_iff.mp hnone) hy
  exact hlt

theorem cut_eq {remaining width : ℕ} (h : (cut remaining width).stop ≠ .length) :
    width ≤ remaining ∧ cut remaining width = ⟨.badLength, 0⟩ := by
  unfold cut at h ⊢
  split
  · exact ⟨‹_›, rfl⟩
  · simp [*] at h

theorem cut_of_le {remaining width : ℕ} (h : width ≤ remaining) : cut remaining width = ⟨.badLength, 0⟩ := if_pos h

theorem head_size_le (hh : head bytes = .ok h) : 2 ≤ h.size ∧ h.size ≤ bytes.length := by
  obtain ⟨-, tag, tagSize, length, lengthSize, htag, -, -, -, hlength, -, -, rfl⟩ := head_eq_ok_iff.mp hh
  have htag := readVarint32_size_le htag
  have hlength := readVarint32_size_le hlength
  simp only [length_drop] at htag hlength ⊢
  omega

theorem head_of_no_tag (hzero : bytes.head? ≠ some 0) (hne : bytes ≠ []) (htag : readVarint32 bytes = none) :
    head bytes = .error (cut bytes.length 5) := by
  unfold head
  split
  · exact absurd rfl hne
  · rw [if_neg (by simpa using hzero), htag]

theorem head_of_padded_tag (hzero : bytes.head? ≠ some 0) {tag size : ℕ} (htag : readVarint32 bytes = some (tag, size))
    (hsize : size ≠ varintSize32 tag) : head bytes = .error ⟨.badLength, 0⟩ := by
  unfold head
  split
  · simp [readVarint32, readVarint] at htag
  · rw [if_neg (by simpa using hzero), htag]
    dsimp only
    rw [if_pos hsize]

theorem head_of_tag (hzero : bytes.head? ≠ some 0) {field : ℕ} (hpos : 0 < field)
    (htag : readVarint32 bytes = some (makeTag field, varintSize32 (makeTag field))) :
    head bytes = match readVarint32 (bytes.drop (varintSize32 (makeTag field))) with
      | none => .error (cut bytes.length (varintSize32 (makeTag field) + 5))
      | some (length, lengthSize) =>
        if lengthSize ≠ varintSize32 length ∨
            maxFrameBytes < varintSize32 (makeTag field) + lengthSize + length then .error ⟨.badLength, 0⟩
        else .ok ⟨field, varintSize32 (makeTag field) + lengthSize, length⟩ := by
  have hfield : makeTag field / 8 = field ∧ makeTag field % 8 = 2 := by
    unfold makeTag
    omega
  unfold head
  split
  · simp [readVarint32, readVarint] at htag
  · rw [if_neg (by simpa using hzero), htag]
    dsimp only
    rw [if_neg (not_not.mpr rfl), if_neg (by omega), hfield.1]

theorem head_append (hh : head bytes = .ok h) : head (bytes ++ more) = .ok h := by
  obtain ⟨hb, tag, tagSize, length, lengthSize, htag, hsize, hfield, htype, hlength, hrest⟩ := head_eq_ok_iff.mp hh
  have hle := (readVarint32_size_le htag).2
  refine head_eq_ok_iff.mpr ⟨?_, tag, tagSize, length, lengthSize, readVarint32_append htag, hsize, hfield, htype, ?_, hrest⟩
  · cases bytes with
    | nil => simp [readVarint32, readVarint] at htag
    | cons b bytes => exact hb
  · rw [drop_append_of_le_length hle]
    exact readVarint32_append hlength

/-- A stop that no further bytes change: a torn varint that is bad already stays so, being longer than
any of the layer's. -/
theorem head_append_error (he : head bytes = .error e) (hlength : e.stop ≠ .length)
    (hend : e.stop ≠ .end) : head (bytes ++ more) = .error e := by
  unfold head at he ⊢
  cases bytes with
  | nil =>
    cases he
    exact absurd rfl hend
  | cons b bytes =>
    simp only [cons_append] at he ⊢
    split at he
    · rw [if_pos ‹_›]
      exact he
    · rename_i hb
      rw [if_neg hb]
      rw [← cons_append]
      split at he
      · rename_i htag
        cases he
        obtain ⟨hle, heq⟩ := cut_eq hlength
        rw [heq]
        split
        · rw [cut_of_le (by rw [length_append]; omega)]
        · rename_i tag tagSize htag'
          have hlt := length_lt_of_readVarint32_append htag htag'
          have := varintSize32_le tag
          rw [if_pos (by simp only at hlt; omega)]
      · rename_i tag tagSize htag
        rw [readVarint32_append htag]
        dsimp only
        split at he
        · rw [if_pos ‹_›]
          exact he
        · rw [if_neg ‹_›]
          split at he
          · rw [if_pos ‹_›]
            exact he
          · rw [if_neg ‹_›, drop_append_of_le_length (readVarint32_size_le htag).2]
            split at he
            · rename_i hnone
              cases he
              obtain ⟨hle, heq⟩ := cut_eq hlength
              rw [heq]
              split
              · rw [cut_of_le (by rw [length_append]; omega)]
              · rename_i length lengthSize hsome
                have hlt := length_lt_of_readVarint32_append hnone hsome
                have := varintSize32_le length
                rw [length_drop] at hlt
                rw [if_pos (by simp only at hlt; omega)]
            · rename_i length lengthSize hsome
              rw [readVarint32_append hsome]
              exact he

theorem next_append {raw : Raw} (h : next bytes = .ok raw) : next (bytes ++ more) = .ok raw := by
  unfold next at h ⊢
  split at h
  · simp at h
  · rename_i hd hhead
    rw [head_append hhead]
    dsimp only
    split at h
    · simp at h
    · rename_i hlen
      have hsize := head_size_le hhead
      rw [if_neg (by rw [length_append]; omega), ← h]
      rw [take_append_of_le_length (by omega), drop_append_of_le_length hsize.2,
        take_append_of_le_length (by rw [length_drop]; omega)]

theorem next_append_error (h : next bytes = .error e) (hlength : e.stop ≠ .length)
    (hend : e.stop ≠ .end) : next (bytes ++ more) = .error e := by
  unfold next at h ⊢
  split at h
  · rename_i e' hhead
    obtain rfl : e' = e := by simpa using h
    rw [head_append_error hhead hlength hend]
  · split at h
    · cases h
      exact absurd rfl hlength
    · simp at h

theorem head_needed (h : head bytes = .error e) (hlength : e.stop = .length) : e.needed = bytes.length + 1 := by
  unfold head cut at h
  grind

theorem next_append_length (h : next bytes = .error e) (hlength : e.stop = .length)
    (hmore : (bytes ++ more).length < e.needed) : next (bytes ++ more) = .error e := by
  rw [length_append] at hmore
  have hnext := h
  unfold next at h
  split at h
  · rename_i hhead
    cases h
    rw [head_needed hhead hlength] at hmore
    obtain rfl : more = [] := length_eq_zero_iff.mp (by omega)
    rw [append_nil]
    exact hnext
  · rename_i hd hhead
    split at h
    · cases h
      rw [next, head_append hhead]
      dsimp only
      rw [if_pos (by rw [length_append]; exact hmore)]
    · simp at h

theorem next_length {raw : Raw} (h : next bytes = .ok raw) : raw.frame <+: bytes ∧ 2 ≤ raw.frame.length := by
  unfold next at h
  split at h
  · simp at h
  · rename_i hd hhead
    split at h
    · simp at h
    · have hsize := head_size_le hhead
      cases h
      exact ⟨List.take_prefix _ _, by rw [length_take]; omega⟩

section Frame

variable {field : ℕ} {body : Bytes}

/-- A frame the layer writes. -/
structure Framed (field : ℕ) (body : Bytes) : Prop where
  pos : 0 < field
  /-- Its tag is a number of 32 bits. -/
  lt : field < 536870912
  length_le : (frame field body).length ≤ maxFrameBytes

theorem head?_writeVarint_ne_zero (field : ℕ) (more : Bytes) : (writeVarint 5 (makeTag field) ++ more).head? ≠ some 0 := by
  have hnat : ∀ n, n % 256 ≠ 0 → ofNat n ≠ 0 := by
    intro n hn hzero
    have := congrArg toNat hzero
    exact hn this
  unfold writeVarint makeTag
  split <;> rw [cons_append, head?_cons, ne_eq, Option.some.injEq] <;> exact hnat _ (by omega)

theorem readVarint32_tag (h : field < 536870912) :
    readVarint32 (writeVarint 5 (makeTag field) ++ more) = some (makeTag field, varintSize32 (makeTag field)) :=
  readVarint32_write (by unfold makeTag; omega)

theorem Framed.body_length_lt (h : Framed field body) : body.length < 4294967296 := by
  have := h.length_le
  simp only [frame, length_append, maxFrameBytes] at this
  omega

theorem Framed.head (h : Framed field body) (more : Bytes) :
    Cursor.head (writeVarint 5 (makeTag field) ++ (writeVarint 5 body.length ++ more)) =
      .ok ⟨field, varintSize32 (makeTag field) + varintSize32 body.length, body.length⟩ := by
  have hmax := h.length_le
  simp only [frame, length_append] at hmax
  refine head_eq_ok_iff.mpr ⟨head?_writeVarint_ne_zero field _, makeTag field, _, body.length, _,
    readVarint32_tag h.lt, rfl, ?_, ?_, ?_, rfl, hmax, ?_⟩
  · have := h.pos
    unfold makeTag
    omega
  · unfold makeTag
    omega
  · rw [varintSize32, drop_left]
    exact readVarint32_write h.body_length_lt
  · have : makeTag field / 8 = field := by
      unfold makeTag
      omega
    rw [this]

theorem frame_length (field : ℕ) (body : Bytes) :
    (frame field body).length = varintSize32 (makeTag field) + varintSize32 body.length + body.length := by
  simp [frame, varintSize32, Nat.add_assoc]

theorem next_frame (h : Framed field body) (more : Bytes) :
    next (frame field body ++ more) = .ok ⟨field, frame field body, body⟩ := by
  have hhead := h.head (body ++ more)
  have hsplit : frame field body ++ more =
      writeVarint 5 (makeTag field) ++ (writeVarint 5 body.length ++ (body ++ more)) := by
    simp [frame]
  rw [← hsplit] at hhead
  unfold next
  rw [hhead]
  dsimp only
  rw [if_neg (by rw [length_append, frame_length]; omega), ← frame_length, take_left]
  congr 2
  rw [hsplit, ← append_assoc, drop_left' (by simp [varintSize32]), take_left]

/-- The first bytes of a frame, by how much of its tag and length they hold. -/
theorem take_frame_cases {k : ℕ} (field : ℕ) (body : Bytes) (hk : k < (frame field body).length) :
    (k < varintSize32 (makeTag field) ∧ (frame field body).take k = (writeVarint 5 (makeTag field)).take k) ∨
    (∃ j, k = varintSize32 (makeTag field) + j ∧ j < varintSize32 body.length ∧
      (frame field body).take k = writeVarint 5 (makeTag field) ++ (writeVarint 5 body.length).take j) ∨
    ∃ j, k = varintSize32 (makeTag field) + varintSize32 body.length + j ∧ j < body.length ∧
      (frame field body).take k = writeVarint 5 (makeTag field) ++ (writeVarint 5 body.length ++ body.take j) := by
  rw [frame_length] at hk
  simp only [varintSize32] at hk ⊢
  obtain h | h := Nat.lt_or_ge k (writeVarint 5 (makeTag field)).length
  · refine .inl ⟨h, ?_⟩
    rw [frame, append_assoc, take_append_of_le_length h.le]
  · refine .inr ?_
    obtain ⟨j, rfl⟩ := Nat.exists_eq_add_of_le h
    have htake : (frame field body).take ((writeVarint 5 (makeTag field)).length + j) =
        writeVarint 5 (makeTag field) ++ (writeVarint 5 body.length ++ body).take j := by
      rw [frame, append_assoc, take_append, take_of_length_le (Nat.le_add_right _ _),
        Nat.add_sub_cancel_left]
    rw [htake]
    obtain h | h := Nat.lt_or_ge j (writeVarint 5 body.length).length
    · exact .inl ⟨j, rfl, h, by rw [take_append_of_le_length h.le]⟩
    · obtain ⟨i, rfl⟩ := Nat.exists_eq_add_of_le h
      refine .inr ⟨i, by omega, by omega, ?_⟩
      rw [take_append, take_of_length_le (Nat.le_add_right _ _), Nat.add_sub_cancel_left]

theorem readVarint32_take {value k : ℕ} (hk : k < varintSize32 value) :
    readVarint32 ((writeVarint 5 value).take k) = none := by
  rw [readVarint32, readVarint_take hk]
  rfl

/-- A varint cut short and followed by zero bytes is padded, or is the number zero. -/
theorem readVarint32_take_zero {value k : ℕ} (more : Bytes) (hk : k < varintSize32 value) :
    ∃ v, readVarint32 ((writeVarint 5 value).take k ++ 0 :: more) = some (v, k + 1) ∧
      (0 < k → k + 1 ≠ varintSize32 v) ∧ (k = 0 → v = 0) := by
  have hle := varintSize32_le value
  obtain ⟨v, hv, hread⟩ : ∃ v, v < 128 ^ k ∧
      readVarint 10 ((writeVarint 5 value).take k ++ 0 :: more) = some (v, k + 1) :=
    readVarint_take_zero hk (by omega)
  refine ⟨v % 4294967296, by rw [readVarint32, hread]; rfl, fun hpos => padded hpos hv, fun hzero => ?_⟩
  subst hzero
  omega

theorem head?_take_ne_zero {k : ℕ} (field : ℕ) (body more : Bytes) (hpos : 0 < k) :
    ((frame field body).take k ++ more).head? ≠ some 0 := by
  have h := head?_writeVarint_ne_zero field (writeVarint 5 body.length ++ body)
  rw [← append_assoc] at h
  change (frame field body).head? ≠ some 0 at h
  obtain ⟨k, rfl⟩ : ∃ n, k = n + 1 := ⟨k - 1, by omega⟩
  cases hframe : frame field body with
  | nil =>
    have := congrArg length hframe
    have := varintSize32_pos body.length
    rw [frame_length, length_nil] at *
    omega
  | cons b rest =>
    rw [hframe] at h
    simpa using h

theorem next_take {k : ℕ} (h : Framed field body) (hpos : 0 < k) (hk : k < (frame field body).length) :
    ∃ needed, next ((frame field body).take k) = .error ⟨.length, needed⟩ ∧ needed ≤ (frame field body).length := by
  have hlen : ((frame field body).take k).length = k := by rw [length_take, Nat.min_eq_left hk.le]
  have hzero : ((frame field body).take k).head? ≠ some 0 := by
    simpa using head?_take_ne_zero field body [] hpos
  have hcut : ∀ {width}, k < width → cut k width = ⟨.length, k + 1⟩ := fun hlt => if_neg (Nat.not_le.mpr hlt)
  obtain ⟨hlt, htake⟩ | ⟨j, rfl, hj, htake⟩ | ⟨j, rfl, hj, htake⟩ := take_frame_cases field body hk
  · refine ⟨k + 1, ?_, hk⟩
    have hhead := head_of_no_tag hzero (by rw [← length_pos_iff, hlen]; exact hpos)
      (by rw [htake]; exact readVarint32_take hlt)
    rw [hlen, hcut (hlt.trans_le (varintSize32_le _))] at hhead
    rw [next, hhead]
  · refine ⟨_, ?_, hk⟩
    have hhead := head_of_tag hzero h.pos (by rw [htake]; exact readVarint32_tag h.lt)
    rw [htake, varintSize32, drop_left, readVarint32_take hj, ← htake, hlen] at hhead
    rw [← varintSize32, hcut (by have := varintSize32_le body.length; omega)] at hhead
    rw [next, hhead]
  · refine ⟨_, ?_, (frame_length field body).ge⟩
    rw [next, htake, h.head]
    dsimp only
    rw [← htake, hlen, if_pos (by rwa [frame_length] at hk)]

/-- A frame cut short and followed by zero bytes is no other field's, and holds all that was left of it:
its length is its own, or its length was lost and its body with it. -/
theorem next_take_zeros {k z : ℕ} (h : Framed field body) (hk : k < (frame field body).length) {raw : Raw}
    (hnext : next ((frame field body).take k ++ replicate z 0) = .ok raw) :
    raw.field = field ∧ k ≤ raw.frame.length ∧
      (raw.body = [] ∨ raw.frame.length = (frame field body).length) := by
  obtain rfl | hpos := Nat.eq_zero_or_pos k
  · cases z <;> simp [next, head, replicate_succ] at hnext
  cases z with
  | zero =>
    obtain ⟨needed, htorn, -⟩ := next_take h hpos hk
    rw [replicate_zero, append_nil, htorn] at hnext
    simp at hnext
  | succ z =>
    have hzero := head?_take_ne_zero field body (replicate (z + 1) 0) hpos
    rw [replicate_succ] at hnext hzero
    obtain ⟨hlt, htake⟩ | ⟨j, rfl, hj, htake⟩ | ⟨j, rfl, hj, htake⟩ := take_frame_cases field body hk
    · -- the tag is torn, and the zero pads it
      rw [htake] at hnext hzero
      obtain ⟨v, hread, hpadded, -⟩ := readVarint32_take_zero (replicate z 0) hlt
      rw [next, head_of_padded_tag hzero hread (hpadded hpos)] at hnext
      simp at hnext
    · -- the length is torn: the zero pads it, or stands for it
      rw [htake, append_assoc] at hnext hzero
      have hhead := head_of_tag hzero h.pos (readVarint32_tag h.lt)
      obtain ⟨v, hread, hpadded, hlost⟩ := readVarint32_take_zero (replicate z 0) hj
      rw [varintSize32, drop_left, hread] at hhead
      dsimp only at hhead
      obtain rfl | hj0 := Nat.eq_zero_or_pos j
      · obtain rfl := hlost rfl
        rw [next, hhead] at hnext
        split at hnext
        · simp at hnext
        · rename_i hd hok
          split at hok
          · simp at hok
          · cases hok
            split at hnext
            · simp at hnext
            · cases hnext
              refine ⟨rfl, ?_, .inl rfl⟩
              rw [length_take]
              simp only [varintSize32] at *
              omega
      · rw [if_pos (.inl (hpadded hj0))] at hhead
        rw [next, hhead] at hnext
        simp at hnext
    · rw [htake] at hnext
      simp only [append_assoc] at hnext
      rw [next, h.head] at hnext
      dsimp only at hnext
      split at hnext
      · simp at hnext
      · rename_i hroom
        cases hnext
        refine ⟨rfl, ?_, .inr ?_⟩
        · rw [length_take]
          omega
        · rw [length_take, frame_length]
          omega

end Frame

end Cursor

end OpcHub.Records
