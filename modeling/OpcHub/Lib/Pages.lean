import Mathlib.Data.List.Sort

/-! Pages of what lies in several files. The files are read one after the other, until
what is read fills the page, and the page is cut from that alone, sorted. It is the page
of all of them, for every page there is, exactly if nothing in a later file has to stand
before something in an earlier one. -/

namespace OpcHub.Lib

open List

variable {α : Type*}

/-- The elements from `offset` on, `limit` of them unless it is zero. -/
def page (limit offset : ℕ) (l : List α) : List α := if limit = 0 then l.drop offset else (l.drop offset).take limit

/-- A page of a list in order, whichever order equal elements are in. -/
def IsPage (le : α → α → Prop) (limit offset : ℕ) (all result : List α) : Prop :=
  ∃ l : List α, l.Perm all ∧ l.Pairwise le ∧ result = page limit offset l

theorem isPage_congr {le : α → α → Prop} {limit offset : ℕ} {all all' result : List α} (h : all.Perm all') :
    IsPage le limit offset all result ↔ IsPage le limit offset all' result :=
  exists_congr fun _ => and_congr_left fun _ => ⟨fun hl => hl.trans h, fun hl => hl.trans h.symm⟩

/-- The files read one after the other, until there is enough. -/
def readUntil (enough : ℕ → Bool) : List α → List (List α) → List α
  | acc, [] => acc
  | acc, f :: fs => if enough acc.length then acc else readUntil enough (acc ++ f) fs

/-- The page is full. -/
def fills (limit offset n : ℕ) : Bool := limit ≠ 0 ∧ limit + offset ≤ n

theorem pairwise_of_split {R : α → α → Prop} {l : List α}
    (h : ∀ pre x post, l = pre ++ x :: post → ∀ y ∈ post, R x y) : l.Pairwise R := by
  induction l with
  | nil => exact List.Pairwise.nil
  | cons x l ih =>
    refine pairwise_cons.mpr ⟨h [] x l rfl, ih fun pre y post hl => ?_⟩
    exact h (x :: pre) y post (by rw [hl, cons_append])

/-- What is read is the first files, and if not all, enough. -/
theorem readUntil_split (enough : ℕ → Bool) (acc : List α) (files : List (List α)) :
    ∃ read rest, files = read ++ rest ∧ readUntil enough acc files = acc ++ read.flatten ∧
      (rest = [] ∨ enough (acc ++ read.flatten).length = true) := by
  induction files generalizing acc with
  | nil => exact ⟨[], [], rfl, (append_nil acc).symm, .inl rfl⟩
  | cons f fs ih =>
    rw [readUntil]
    split_ifs with henough
    · exact ⟨[], f :: fs, rfl, (append_nil acc).symm, .inr (by simpa using henough)⟩
    · obtain ⟨read, rest, hfs, hread, hrest⟩ := ih (acc ++ f)
      refine ⟨f :: read, rest, by rw [hfs, cons_append], ?_, ?_⟩
      · rw [hread, flatten_cons, append_assoc]
      · rwa [flatten_cons, ← append_assoc]

theorem readUntil_all {enough : ℕ → Bool} (h : ∀ n, enough n = false) (acc : List α) (files : List (List α)) :
    readUntil enough acc files = acc ++ files.flatten := by
  obtain ⟨read, rest, rfl, hread, hrest⟩ := readUntil_split enough acc files
  rcases hrest with rfl | hfull
  · rw [hread, append_nil]
  · rw [h] at hfull
    cases hfull

theorem readUntil_through {limit : ℕ} {f : List α} (acc : List α) (pre post : List (List α)) (hf : f ≠ [])
    (hlimit : limit = acc.length + pre.flatten.length + f.length) :
    readUntil (fills limit 0) acc (pre ++ f :: post) = acc ++ pre.flatten ++ f := by
  have hpos := length_pos_iff.mpr hf
  induction pre generalizing acc with
  | nil =>
    have hnot : fills limit 0 acc.length = false := by simp only [flatten_nil, length_nil] at hlimit; simp [fills]; omega
    rw [nil_append, readUntil, hnot, if_neg Bool.false_ne_true]
    cases post with
    | nil => simp [readUntil]
    | cons g post =>
      have hfull : fills limit 0 (acc ++ f).length = true := by simp at hlimit; simp [fills]; omega
      rw [readUntil, hfull, if_pos rfl]
      simp
  | cons g pre ih =>
    rw [flatten_cons, length_append] at hlimit
    have hnot : fills limit 0 acc.length = false := by simp [fills]; omega
    rw [cons_append, readUntil, hnot, if_neg Bool.false_ne_true, ih (acc ++ g) (by rw [length_append]; omega)]
    simp

theorem page_append {limit offset : ℕ} {l : List α} (rest : List α) (h : fills limit offset l.length = true) :
    page limit offset (l ++ rest) = page limit offset l := by
  simp only [fills, ne_eq, decide_eq_true_eq] at h
  rw [page, page, if_neg h.1, if_neg h.1, drop_append_of_le_length (by omega), take_append_of_le_length]
  rw [length_drop]
  omega

section Sorted

variable {le : α → α → Prop} {sort : List α → List α}

/-- Every page of the files that ends before `bound` is a page of all of them exactly if no later file has anything
that stands before something in an earlier one. -/
theorem isPage_readUntil_iff (hperm : ∀ l, (sort l).Perm l) (hsorted : ∀ l, (sort l).Pairwise le) {bound : ℕ}
    {files : List (List α)} (hbound : files.flatten.length < bound) :
    (∀ limit offset, limit + offset < bound → IsPage le limit offset files.flatten
        (page limit offset (sort (readUntil (fills limit offset) [] files)))) ↔
      files.Pairwise fun f g => ∀ a ∈ f, ∀ b ∈ g, le a b := by
  constructor
  · intro h
    refine pairwise_of_split fun pre f post hfiles g hg a ha b hb => ?_
    -- the page that ends with this file
    have hend : pre.flatten.length + f.length + 0 < bound := by
      simp only [hfiles, flatten_append, flatten_cons, length_append] at hbound
      omega
    obtain ⟨l, hl, hle, hpage⟩ := h (pre.flatten.length + f.length) 0 hend
    have hread : readUntil (fills (pre.flatten.length + f.length) 0) [] (pre ++ f :: post) = [] ++ pre.flatten ++ f :=
      readUntil_through [] pre post (ne_nil_of_mem ha) (by simp)
    have hpos := length_pos_of_mem ha
    rw [hfiles, hread, page, page, if_neg (by omega), if_neg (by omega), drop_zero, drop_zero,
      nil_append] at hpage
    rw [take_of_length_le (by rw [(hperm _).length_eq, length_append])] at hpage
    rw [← take_append_drop (pre.flatten.length + f.length) l, ← hpage] at hl hle
    have hrest : (l.drop (pre.flatten.length + f.length)).Perm post.flatten := by
      refine (perm_append_left_iff (pre.flatten ++ f)).mp (((hperm _).symm.append_right _).trans (hl.trans ?_))
      simp [hfiles]
    refine (pairwise_append.mp hle).2.2 a ((hperm _).mem_iff.mpr (mem_append_right _ ha)) b ?_
    exact hrest.mem_iff.mpr (mem_flatten_of_mem hg hb)
  · intro h limit offset _
    obtain ⟨read, rest, rfl, hread, hrest⟩ := readUntil_split (fills limit offset) [] files
    rw [hread, nil_append]
    refine ⟨sort read.flatten ++ sort rest.flatten, ?_, pairwise_append.mpr ⟨hsorted _, hsorted _, ?_⟩, ?_⟩
    · rw [flatten_append]
      exact (hperm _).append (hperm _)
    · intro a ha b hb
      obtain ⟨f, hf, ha⟩ := mem_flatten.mp ((hperm _).mem_iff.mp ha)
      obtain ⟨g, hg, hb⟩ := mem_flatten.mp ((hperm _).mem_iff.mp hb)
      exact (pairwise_append.mp h).2.2 f hf g hg a ha b hb
    · rcases hrest with rfl | hfull
      · have hnil : sort ([] : List (List α)).flatten = [] := (hperm _).eq_nil
        rw [hnil, append_nil]
      · exact (page_append _ (by rwa [(hperm _).length_eq])).symm

end Sorted

end OpcHub.Lib
