import TheSeed.BoundedBytes

namespace TheSeed.BoundedNames

open Bytes Checked BoundedBytes

/-! Names with a NUL at their end, as the dependency parsers read them, and views that lie inside what they look at. -/

/-- A name in a table, with the NUL at its end. -/
structure NameAt (table : List UInt8) (offset : Nat) (name : List UInt8) : Prop where
  inside : offset + name.length < table.length
  bytes : slice table offset name.length = name
  ended : table[offset + name.length]? = some 0
  plain : 0 ∉ name
  short : name.length ≤ 4095

section views

variable {span : ByteSpan} {offset length : Nat}

theorem sub_ok (h : offset + length ≤ span.bytes.length) (what : String) :
    span.sub offset length what = .ok ⟨slice span.bytes offset length, span.format, what⟩ := by
  rw [ByteSpan.sub, if_pos]
  exact rangeFits_iff.mpr h

end views

section names

variable {table name : List UInt8} {offset limit : Nat}

/-- What is looked at for the NUL starts with the name and it. -/
theorem NameAt.window (h : NameAt table offset name) (hlimit : name.length < limit) :
    ∃ rest, slice table offset limit = name ++ 0 :: rest := by
  obtain ⟨count, rfl⟩ := Nat.exists_eq_add_of_lt hlimit
  have hsplit := slice_append_slice table offset name.length (count + 1)
  have hhead : (slice table (offset + name.length) (count + 1))[0]? = some 0 := by
    rw [getElem?_slice, if_pos (Nat.succ_pos count)]
    exact h.ended
  obtain ⟨first, rest, hrest⟩ : ∃ first rest, slice table (offset + name.length) (count + 1) = first :: rest := by
    apply List.exists_cons_of_ne_nil
    intro hnil
    rw [hnil] at hhead
    cases hhead
  rw [hrest, List.getElem?_cons_zero, Option.some.injEq] at hhead
  refine ⟨rest, ?_⟩
  rw [Nat.add_assoc, ← hsplit, h.bytes, hrest, hhead]

/-- A name is read whole, up to its NUL. -/
theorem NameAt.cString {span : ByteSpan} (h : NameAt span.bytes offset name) (what : String) :
    span.cString offset 4096 what = .ok name := by
  have hinside := h.inside
  have hshort := h.short
  have hsize : ¬ span.size ≤ offset := by
    rw [ByteSpan.size]
    omega
  have hlimit : name.length < if 4096 < span.size - offset then 4096 else span.size - offset := by
    rw [ByteSpan.size]
    split <;> omega
  obtain ⟨rest, hwindow⟩ := h.window hlimit
  have hplain : ∀ b ∈ name, (b != 0) = true := by
    intro b hb
    rw [bne_iff_ne]
    rintro rfl
    exact h.plain hb
  rw [ByteSpan.cString, rejectIf_of_not hsize, ok_bind]
  simp only [hwindow]
  rw [if_pos (List.mem_append_right name List.mem_cons_self), List.takeWhile_append_of_pos hplain]
  simp [Pure.pure, Except.pure]

end names

end TheSeed.BoundedNames
