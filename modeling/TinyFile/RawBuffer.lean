import TinyFile.Splice

/-!
# Copying through a raw pointer

A buffer and an offset into it. A copy out of bounds is not defined. Copies that
follow each other fill the buffer from its start: what has been written is a
prefix, and each copy makes it longer.
-/
namespace TinyFile.RawBuffer

variable {α : Type*}

/-- Copy to an offset of the buffer. -/
def copy (buffer : List α) (dest : ℕ) (src : List α) : Option (List α) :=
  if dest + src.length ≤ buffer.length then some (splice buffer dest src) else none

/-- Copy from an offset of the buffer. -/
def fetch (buffer : List α) (offset width : ℕ) : Option (List α) :=
  if offset + width ≤ buffer.length then some ((buffer.drop offset).take width) else none

/-- A copy behind what is already written. -/
theorem copy_spec {buffer content : List α} (h : content <+: buffer) {src : List α}
    (hroom : content.length + src.length ≤ buffer.length) :
    ∃ buffer', copy buffer content.length src = some buffer' ∧ buffer'.length = buffer.length ∧
      (content ++ src) <+: buffer' := by
  refine ⟨_, if_pos hroom, length_splice hroom, ?_⟩
  rw [splice, ← List.prefix_iff_eq_take.mp h]
  exact List.prefix_append _ _

/-- A field that stands in the buffer is fetched. -/
theorem fetch_spec {buffer front field : List α} (h : front ++ field <+: buffer) :
    fetch buffer front.length field.length = some field := by
  obtain ⟨rest, rfl⟩ := h
  rw [fetch, if_pos (by simp), List.append_assoc, List.drop_left, List.take_left]

end TinyFile.RawBuffer
