/-
  Reckoner.Proofs.Lines — the lines of a source.

  A source none of whose reads fail is read as the lines of its text: each ends with its only
  newline, the last one perhaps without. It makes no difference whether its bytes are decoded
  line by line or all at once, nor how they are cut into pieces.

  - `lined_reads`: the reads of a source are lines.
  - `joined_reads`: put together again they are the decoded bytes.
  - `lineCount_lined`: what is left of the current line and the lines to come, counted.
-/

import Reckoner.Source

namespace Reckoner

/-! ## Newlines in UTF-8 -/

namespace Utf8

/-- What lies open will not end in a character as small as a newline: some of its high bits
    are set, or those of the next byte, which is not the last, will be. -/
def Partial.Wide (p : Partial) : Prop := 1 ≤ p.bits ∨ 2 ≤ p.toCome ∧ 0x90 ≤ p.low

theorem start_wide {b : Nat} {p : Partial} (h : (start b).2 = some p) : p.Wide := by
  unfold start first at h
  grind [Partial.Wide]

theorem step_wide {o : Option Partial} (ho : ∀ p ∈ o, p.Wide) {b : Nat} {p : Partial}
    (h : (step o b).2 = some p) : p.Wide := by
  rcases o with _ | q
  · simp only [step] at h
    exact start_wide h
  · have hq := ho q rfl
    simp only [step] at h
    unfold Partial.Wide at hq ⊢
    split at h
    · split at h
      · cases h
      · obtain rfl := Option.some.inj h
        left
        show 1 ≤ q.bits * 0x40 + (b - 0x80)
        omega
    · exact start_wide h

theorem ofNat_ne_newline {n : Nat} (h : n ≠ newline.toNat) : Char.ofNat n ≠ '\n' := by
  intro he
  by_cases hv : n.isValidChar
  · rw [Char.ofNat, dif_pos hv] at he
    exact h (congrArg Char.toNat he)
  · rw [Char.ofNat, dif_neg hv] at he
    cases he

theorem newline_of_mem_start {b : Nat} (h : '\n' ∈ (start b).1) : b = newline.toNat := by
  unfold start first at h
  by_cases hb : b ≤ 0x7F
  · simp only [hb, if_true, List.mem_singleton] at h
    exact Decidable.byContradiction fun hn => ofNat_ne_newline hn h.symm
  · simp only [hb, if_false] at h
    grind [replacement]

/-- Only the byte of a newline is decoded as one. -/
theorem newline_of_mem_step {o : Option Partial} (ho : ∀ p ∈ o, p.Wide) {b : Nat} (h : '\n' ∈ (step o b).1) :
    b = newline.toNat := by
  rcases o with _ | q
  · simp only [step] at h
    exact newline_of_mem_start h
  · have hq := ho q rfl
    simp only [step] at h
    unfold Partial.Wide at hq
    split at h
    · split at h
      · rw [List.mem_singleton] at h
        refine absurd h.symm (ofNat_ne_newline ?_)
        show q.bits * 0x40 + (b - 0x80) ≠ 10
        omega
      · cases h
    · rcases List.mem_cons.mp h with h | h
      · cases h
      · exact newline_of_mem_start h

theorem newline_not_mem_decodeFrom {o : Option Partial} (ho : ∀ p ∈ o, p.Wide) {bytes : List UInt8}
    (h : newline ∉ bytes) : '\n' ∉ decodeFrom o bytes := by
  induction bytes generalizing o with
  | nil => cases o <;> simp [decodeFrom, replacement]
  | cons b bytes ih =>
    simp only [List.mem_cons, not_or] at h
    simp only [decodeFrom, List.mem_append, not_or]
    refine ⟨fun hm => ?_, ih (fun p hp => step_wide ho hp) h.2⟩
    exact h.1 (UInt8.toNat_inj.mp (newline_of_mem_step ho hm)).symm

theorem newline_not_mem_decode {bytes : List UInt8} (h : newline ∉ bytes) : '\n' ∉ decode bytes :=
  newline_not_mem_decodeFrom (by simp) h

/-- No byte is lost: a sequence that never ends is still a character. -/
theorem decodeFrom_ne_nil (p : Partial) (bytes : List UInt8) : decodeFrom (some p) bytes ≠ [] := by
  induction bytes generalizing p with
  | nil => simp [decodeFrom]
  | cons b bytes ih =>
    simp only [decodeFrom, step]
    split
    · split
      · simp
      · simpa using ih _
    · simp

theorem decode_ne_nil {bytes : List UInt8} (h : bytes ≠ []) : decode bytes ≠ [] := by
  rcases bytes with _ | ⟨b, bytes⟩
  · exact absurd rfl h
  · simp only [decode, decodeFrom, step, start]
    cases hf : first b.toNat with
    | single c => simp
    | opening p => simpa using decodeFrom_ne_nil p bytes
    | invalid => simp

@[simp] theorem decode_nil : decode [] = [] := rfl

theorem decode_append_line (line rest : List UInt8) :
    decode (line ++ newline :: rest) = decode (line ++ [newline]) ++ decode rest := by
  simp only [decode_append_newline, List.append_assoc, List.cons_append]
  rfl

end Utf8

/-! ## Cutting bytes into lines -/

namespace Source

theorem cutLines_of_not_mem {bytes : List UInt8} (h : Utf8.newline ∉ bytes) : cutLines bytes = ([], bytes) := by
  induction bytes with
  | nil => rfl
  | cons b bytes ih =>
    simp only [List.mem_cons, not_or] at h
    simp [cutLines, ih h.2, Ne.symm h.1]

theorem newline_not_mem_rest (bytes : List UInt8) : Utf8.newline ∉ (cutLines bytes).2 := by
  induction bytes with
  | nil => simp [cutLines]
  | cons b bytes ih =>
    by_cases hb : b = Utf8.newline
    · simpa [cutLines, hb] using ih
    · rcases hl : (cutLines bytes).1 with _ | ⟨line, lines⟩
      · simpa [cutLines, hb, hl, Ne.symm hb] using ih
      · simpa [cutLines, hb, hl] using ih

theorem ends_of_mem_cutLines {bytes line : List UInt8} (h : line ∈ (cutLines bytes).1) :
    ∃ a, Utf8.newline ∉ a ∧ line = a ++ [Utf8.newline] := by
  induction bytes generalizing line with
  | nil => simp [cutLines] at h
  | cons b bytes ih =>
    by_cases hb : b = Utf8.newline
    · simp only [cutLines, hb, if_true, List.mem_cons] at h
      rcases h with rfl | h
      · exact ⟨[], by simp, rfl⟩
      · exact ih h
    · rcases hl : (cutLines bytes).1 with _ | ⟨first, lines⟩
      · simp [cutLines, hb, hl] at h
      · simp only [cutLines, hb, if_false, hl, List.mem_cons] at h
        rw [hl] at ih
        rcases h with rfl | h
        · obtain ⟨a, ha, he⟩ := ih List.mem_cons_self
          exact ⟨b :: a, by simp [ha, Ne.symm hb], by simp [he]⟩
        · exact ih (List.mem_cons_of_mem _ h)

theorem flatten_cutLines (bytes : List UInt8) : (cutLines bytes).1.flatten ++ (cutLines bytes).2 = bytes := by
  induction bytes with
  | nil => rfl
  | cons b bytes ih =>
    by_cases hb : b = Utf8.newline
    · simp [cutLines, hb, ih]
    · rcases hl : (cutLines bytes).1 with _ | ⟨line, lines⟩
      · rw [hl] at ih
        simp only [cutLines, hb, if_false, hl]
        simpa using ih
      · rw [hl] at ih
        simp only [cutLines, hb, if_false, hl]
        simpa using ih

/-- The lines of some bytes, with what stands behind the last newline. -/
def byteLines (bytes : List UInt8) : List (List UInt8) :=
  (cutLines bytes).1 ++ if (cutLines bytes).2 = [] then [] else [(cutLines bytes).2]

theorem byteLines_append (a b : List UInt8) :
    byteLines (a ++ b) = (cutLines a).1 ++ byteLines ((cutLines a).2 ++ b) := by
  simp only [byteLines, cutLines_append a b, List.append_assoc]

theorem readsFrom_bytes {begun : List UInt8} (h : Utf8.newline ∉ begun) (chunks : List (List UInt8)) :
    readsFrom begun (chunks.map .bytes) = (byteLines (begun ++ chunks.flatten)).map lineRead := by
  induction chunks generalizing begun with
  | nil =>
    simp only [List.map_nil, readsFrom, List.flatten_nil, List.append_nil, byteLines, cutLines_of_not_mem h,
      List.nil_append]
    split <;> rfl
  | cons b chunks ih =>
    simp only [List.map_cons, readsFrom, ih (newline_not_mem_rest _), List.flatten_cons]
    rw [← List.append_assoc, byteLines_append (begun ++ b), List.map_append]

/-- A source is read as the lines of its bytes, however these are cut into pieces. -/
theorem reads_bytes (chunks : List (List UInt8)) :
    reads (chunks.map .bytes) = (byteLines chunks.flatten).map lineRead :=
  readsFrom_bytes (by simp) chunks

end Source

/-! ## Lines of text -/

def Read.text : Read → List Char
  | .line text => text
  | .failure _ => []

/-- The text of some reads, put together. -/
def joined (reads : List Read) : List Char := reads.flatMap Read.text

/-- No read fails. -/
def AllLines (reads : List Read) : Prop := ∀ read ∈ reads, ∃ text, read = .line text

/-- A line with its newline. -/
def IsLine (text : List Char) : Prop := ∃ a, '\n' ∉ a ∧ text = a ++ ['\n']

/-- The rest of a line, and the reads behind it: they are lines, and only the last line of all
    may be without a newline. -/
def Lined (text : List Char) : List Read → Prop
  | [] => '\n' ∉ text ∨ IsLine text
  | .line next :: reads => (text = [] ∨ IsLine text) ∧ next ≠ [] ∧ Lined next reads
  | .failure _ :: _ => False

theorem allLines_of_lined {text : List Char} {reads : List Read} (h : Lined text reads) : AllLines reads := by
  induction reads generalizing text with
  | nil => exact fun _ hm => nomatch hm
  | cons read reads ih =>
    cases read with
    | line next => exact List.forall_mem_cons.mpr ⟨⟨next, rfl⟩, ih h.2.2⟩
    | failure message => exact absurd h id

/-- The number of lines; a last one without a newline counts if it holds anything. -/
def lineCount (text : List Char) : Nat := text.count '\n' + if text.getLast?.all (· = '\n') then 0 else 1

theorem IsLine.ne_nil {text : List Char} (h : IsLine text) : text ≠ [] := by
  obtain ⟨a, -, rfl⟩ := h
  simp

theorem IsLine.count {text : List Char} (h : IsLine text) : text.count '\n' = 1 := by
  obtain ⟨a, ha, rfl⟩ := h
  simp [List.count_eq_zero_of_not_mem ha]

theorem lineCount_append (a : List Char) {b : List Char} (h : b ≠ []) :
    lineCount (a ++ b) = a.count '\n' + lineCount b := by
  rcases List.eq_nil_or_concat b with rfl | ⟨b, c, rfl⟩
  · exact absurd rfl h
  · simp [lineCount, List.getLast?_append, Nat.add_assoc]

theorem joined_ne_nil {text next : List Char} {reads : List Read} (h : Lined text (.line next :: reads)) :
    joined (.line next :: reads) ≠ [] := by
  simp [joined, Read.text, h.2.1]

/-- Every line that is left counts, and the rest of the current one if there is any. -/
theorem lineCount_lined {text : List Char} {reads : List Read} (h : Lined text reads) :
    lineCount (text ++ joined reads) = reads.length + if text = [] then 0 else 1 := by
  induction reads generalizing text with
  | nil =>
    simp only [joined, List.flatMap_nil, List.append_nil, List.length_nil, Nat.zero_add]
    rcases h with h | h
    · rw [lineCount, List.count_eq_zero_of_not_mem h, Nat.zero_add]
      rcases List.eq_nil_or_concat text with rfl | ⟨a, c, rfl⟩
      · rfl
      · have hc : c ≠ '\n' := by
          rintro rfl
          simp at h
        simp [hc]
    · obtain ⟨a, ha, rfl⟩ := h
      simp [lineCount, List.count_eq_zero_of_not_mem ha]
  | cons read reads ih =>
    match read, h with
    | .line next, h =>
      obtain ⟨ht, hn, hl⟩ := h
      have hj : joined (.line next :: reads) = next ++ joined reads := rfl
      rw [lineCount_append _ (joined_ne_nil ⟨ht, hn, hl⟩), hj, ih hl, if_neg hn, List.length_cons]
      rcases ht with rfl | ht
      · simp
      · rw [ht.count, if_neg ht.ne_nil]
        omega

theorem lined_of_isLine {lines : List (List Char)} (hl : ∀ line ∈ lines, IsLine line) {last : List Char}
    (h : '\n' ∉ last) {text : List Char} (ht : text = [] ∨ IsLine text) :
    Lined text (lines.map .line ++ if last = [] then [] else [.line last]) := by
  induction lines generalizing text with
  | nil =>
    by_cases hn : last = []
    · simp only [hn, if_true, List.map_nil, List.append_nil]
      rcases ht with rfl | ht
      · exact .inl (by simp)
      · exact .inr ht
    · simp only [hn, if_false, List.map_nil, List.nil_append]
      exact ⟨ht, hn, .inl h⟩
  | cons line lines ih =>
    have hline := hl line List.mem_cons_self
    exact ⟨ht, hline.ne_nil, ih (fun l hm => hl l (List.mem_cons_of_mem _ hm)) (.inr hline)⟩

namespace Source

theorem isLine_decode {bytes line : List UInt8} (h : line ∈ (cutLines bytes).1) : IsLine (Utf8.decode line) := by
  obtain ⟨a, ha, rfl⟩ := ends_of_mem_cutLines h
  refine ⟨Utf8.decode a, Utf8.newline_not_mem_decode ha, ?_⟩
  rw [Utf8.decode_append_newline]
  rfl

/-- A source is read as lines. -/
theorem lined_reads (chunks : List (List UInt8)) : Lined [] (reads (chunks.map .bytes)) := by
  have hlines : ∀ line ∈ (cutLines chunks.flatten).1.map Utf8.decode, IsLine line := by
    intro line hm
    obtain ⟨bytes, hb, rfl⟩ := List.mem_map.mp hm
    exact isLine_decode hb
  have h := lined_of_isLine hlines (Utf8.newline_not_mem_decode (newline_not_mem_rest chunks.flatten)) (.inl rfl)
  rw [List.map_map] at h
  rw [reads_bytes, byteLines]
  by_cases hr : (cutLines chunks.flatten).2 = []
  · rw [hr, Utf8.decode_nil, if_pos rfl, List.append_nil] at h
    rw [if_pos hr, List.append_nil]
    exact h
  · rw [if_neg (Utf8.decode_ne_nil hr)] at h
    rw [if_neg hr, List.map_append]
    exact h

theorem decode_flatten {lines : List (List UInt8)} (h : ∀ line ∈ lines, ∃ a, line = a ++ [Utf8.newline])
    (rest : List UInt8) : Utf8.decode (lines.flatten ++ rest) = lines.flatMap Utf8.decode ++ Utf8.decode rest := by
  induction lines with
  | nil => rfl
  | cons line lines ih =>
    obtain ⟨a, rfl⟩ := h line List.mem_cons_self
    have ih := ih fun l hm => h l (List.mem_cons_of_mem _ hm)
    simp only [List.flatten_cons, List.append_assoc, List.flatMap_cons]
    rw [List.singleton_append, Utf8.decode_append_line, ih]

/-- Put together, the lines of a source are its bytes, decoded all at once. -/
theorem joined_reads (chunks : List (List UInt8)) :
    joined (reads (chunks.map .bytes)) = Utf8.decode chunks.flatten := by
  have hlines : ∀ line ∈ (cutLines chunks.flatten).1, ∃ a, line = a ++ [Utf8.newline] := by
    intro line hm
    obtain ⟨a, -, he⟩ := ends_of_mem_cutLines hm
    exact ⟨a, he⟩
  have h := decode_flatten hlines (cutLines chunks.flatten).2
  rw [flatten_cutLines] at h
  rw [reads_bytes, byteLines, h]
  by_cases hr : (cutLines chunks.flatten).2 = []
  · simp [joined, hr, lineRead, Read.text, List.flatMap_map]
  · simp [joined, hr, lineRead, Read.text, List.flatMap_map]

end Source

end Reckoner
