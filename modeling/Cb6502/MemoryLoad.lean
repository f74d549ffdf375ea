import Cb6502.Lib.Blocks
import Cb6502.Memory

/- Loading a memory (`memory_load_data` of io/memory/src/memory.c). The length of the copy is that
   of the data or of the memory, less the offset, in 16 bits: the offset is subtracted where the
   data is the shorter one, too.

   What is proved:
     1. `memoryLoadData_loads`, `memoryLoadData_undefined` (what is loaded; and the copy that runs
        out of its buffers, with an offset past the length of the data).
     2. `memoryLoadData_iff` (when that is the first bytes of the data and, around them, the fill or
        what was there). -/
namespace Cb6502

/-- `memory_load_data`. `none` stands for a `memcpy` or `memset` outside its buffers. -/
def memoryLoadData (memory : Memory) (dataSize : BitVec 16)
    (data : Option (Vector (BitVec 8) dataSize.toNat)) (offset : BitVec 16) (useFill : Bool)
    (fillVal : BitVec 8) : Option Memory :=
  match data with
  | none => some memory
  | some data =>
    if dataSize = 0 ∨ offset ≥ memory.size then some memory
    else do
      let copySize := if dataSize < memory.size then dataSize else memory.size
      let copySize := copySize - offset
      let buffer ← Blocks.copy memory.buffer offset.toNat data copySize.toNat
      if useFill then
        let buffer ← (if offset > 0 then Blocks.fill buffer 0 offset.toNat fillVal else some buffer)
        let used := offset.toNat + copySize.toNat
        let buffer ← (if used < memory.size.toNat then
            Blocks.fill buffer used (memory.size.toNat - used) fillVal
          else some buffer)
        some { memory with buffer }
      else some { memory with buffer }

section Load
variable {memory : Memory} {dataSize offset : BitVec 16} {useFill : Bool} {fillVal : BitVec 8}
  {data : Vector (BitVec 8) dataSize.toNat}

/-- A byte that no data is loaded to. -/
def restByte (memory : Memory) (useFill : Bool) (fillVal : BitVec 8)
    (i : Fin memory.size.toNat) : BitVec 8 :=
  if useFill then fillVal else memory.buffer.get i

/-- The memory with the first `count` bytes of the data from the offset on. -/
def loadedMemory (memory : Memory) (data : Vector (BitVec 8) dataSize.toNat) (offset : BitVec 16)
    (useFill : Bool) (fillVal : BitVec 8) (count : Nat) (hcount : count ≤ dataSize.toNat) :
    Memory :=
  { memory with
    buffer := .ofFn fun i =>
      if h : offset.toNat ≤ i.val ∧ i.val < offset.toNat + count then
        data.get ⟨i.val - offset.toNat, by omega⟩
      else restByte memory useFill fillVal i }

/-- As many bytes of the data as there are and as fit are in the memory from the offset on, and no
other byte of the memory or of the data is touched. -/
def Loads (memory : Memory) (dataSize : BitVec 16) (data : Vector (BitVec 8) dataSize.toNat)
    (offset : BitVec 16) (useFill : Bool) (fillVal : BitVec 8) : Prop :=
  memoryLoadData memory dataSize (some data) offset useFill fillVal =
    some (loadedMemory memory data offset useFill fillVal
      (min dataSize.toNat (memory.size.toNat - offset.toNat)) (Nat.min_le_left ..))

/-- The offset is within the data, and the bytes for which the copy is too short, by the offset,
have their value already. -/
def LeftOutAlike (memory : Memory) (dataSize : BitVec 16) (data : Vector (BitVec 8) dataSize.toNat)
    (offset : BitVec 16) (useFill : Bool) (fillVal : BitVec 8) : Prop :=
  offset ≤ dataSize ∧ ∀ i : Fin memory.size.toNat, dataSize.toNat ≤ i.val →
    ∀ h : i.val - offset.toNat < dataSize.toNat,
      restByte memory useFill fillVal i = data.get ⟨i.val - offset.toNat, h⟩

theorem copySize_toNat (hdata : offset ≤ dataSize) (hoffset : offset < memory.size) :
    ((if dataSize < memory.size then dataSize else memory.size) - offset).toNat =
      min dataSize.toNat memory.size.toNat - offset.toNat := by
  have hle := BitVec.le_def.mp hdata
  have hlt := BitVec.lt_def.mp hoffset
  split
  · rename_i hless
    have hshort := BitVec.lt_def.mp hless
    rw [BitVec.toNat_sub_of_le hdata]
    omega
  · rename_i hless
    have hlong := BitVec.le_def.mp (BitVec.not_lt.mp hless)
    rw [BitVec.toNat_sub_of_le (BitVec.le_of_lt hoffset)]
    omega

/-- With an offset within the data, the data is loaded up to its own length. -/
theorem memoryLoadData_loads (hsize : dataSize ≠ 0) (hoffset : offset < memory.size)
    (hdata : offset ≤ dataSize) :
    memoryLoadData memory dataSize (some data) offset useFill fillVal =
      some (loadedMemory memory data offset useFill fillVal
        (min dataSize.toNat memory.size.toNat - offset.toNat) (by omega)) := by
  have hle := BitVec.le_def.mp hdata
  have hlt := BitVec.lt_def.mp hoffset
  have hgo : ¬(dataSize = 0 ∨ offset ≥ memory.size) := by
    rintro (hzero | hover)
    · exact hsize hzero
    · exact BitVec.not_le.mpr hoffset hover
  have hcopy := copySize_toNat hdata hoffset
  simp only [memoryLoadData, if_neg hgo, hcopy]
  rw [Blocks.copy_eq (by omega) (by omega), Option.bind_eq_bind, Option.bind_some]
  cases useFill with
  | false => rfl
  | true =>
    have hpos : offset > 0 ↔ 0 < offset.toNat := BitVec.lt_def
    simp only [if_true, hpos]
    simp only [Blocks.fill_front _ fillVal (Nat.le_of_lt hlt), Option.bind_some]
    rw [Blocks.fill_back _ _ (by omega), Option.bind_some, loadedMemory]
    congr 2
    apply Blocks.ofFn_congr
    intro i
    simp only [Blocks.get_ofFn, restByte, if_true]
    -- the fills go round the bytes that are loaded
    by_cases hin : offset.toNat ≤ i.val ∧
        i.val < offset.toNat + (min dataSize.toNat memory.size.toNat - offset.toNat)
    · rw [if_neg (by omega), if_neg (by omega)]
      simp only [dif_pos hin]
    · simp only [dif_neg hin]
      by_cases hbefore : i.val < offset.toNat
      · rw [if_neg (by omega), if_pos hbefore]
      · rw [if_pos (by omega)]

/-- An offset past the length of the data makes the length of the copy wrap round. -/
theorem memoryLoadData_undefined (hsize : dataSize ≠ 0) (hoffset : offset < memory.size)
    (hdata : dataSize < offset) :
    memoryLoadData memory dataSize (some data) offset useFill fillVal = none := by
  have hless := BitVec.lt_def.mp hdata
  have hgo : ¬(dataSize = 0 ∨ offset ≥ memory.size) := by
    rintro (hzero | hover)
    · exact hsize hzero
    · exact BitVec.not_le.mpr hoffset hover
  have hshort : dataSize < memory.size := BitVec.lt_trans hdata hoffset
  have hcopy : dataSize.toNat < (dataSize - offset).toNat := by
    have hpos : 0 < dataSize.toNat := Nat.pos_of_ne_zero fun hzero => hsize (BitVec.eq_of_toNat_eq hzero)
    have hoffset' := offset.isLt
    rw [BitVec.toNat_sub]
    omega
  simp only [memoryLoadData, if_neg hgo, if_pos hshort, Blocks.copy_none (.inl hcopy)]
  rfl

/-- A load is right exactly if the offset is within the data and the bytes that it leaves out would
not change the memory. -/
theorem memoryLoadData_iff (hsize : 1 ≤ dataSize.toNat) (hoffset : offset < memory.size) :
    Loads memory dataSize data offset useFill fillVal ↔
      LeftOutAlike memory dataSize data offset useFill fillVal := by
  have hsome : dataSize ≠ 0 := by
    rintro rfl
    exact absurd hsize (by decide)
  have hlt := BitVec.lt_def.mp hoffset
  by_cases hdata : offset ≤ dataSize
  · have hle := BitVec.le_def.mp hdata
    rw [Loads, memoryLoadData_loads hsome hoffset hdata, LeftOutAlike, and_iff_right hdata,
      Option.some_inj]
    simp only [loadedMemory, Memory.mk.injEq, heq_eq_eq, true_and, Blocks.ofFn_inj]
    refine forall_congr' fun i => ?_
    have hi := i.isLt
    by_cases hcopied : offset.toNat ≤ i.val ∧
        i.val < offset.toNat + (min dataSize.toNat memory.size.toNat - offset.toNat)
    · have hdue : offset.toNat ≤ i.val ∧
          i.val < offset.toNat + min dataSize.toNat (memory.size.toNat - offset.toNat) := by omega
      rw [dif_pos hcopied, dif_pos hdue]
      exact iff_of_true rfl fun hlate => by omega
    · rw [dif_neg hcopied]
      by_cases hdue : offset.toNat ≤ i.val ∧
          i.val < offset.toNat + min dataSize.toNat (memory.size.toNat - offset.toNat)
      · -- a byte that the copy leaves out
        rw [dif_pos hdue]
        exact ⟨fun heq _ _ => heq, fun h => h (by omega) (by omega)⟩
      · rw [dif_neg hdue]
        exact iff_of_true rfl fun hlate hread => by omega
  · have hover := BitVec.not_le.mp hdata
    rw [Loads, memoryLoadData_undefined hsome hoffset hover]
    exact iff_of_false (Option.some_ne_none _).symm fun h => hdata h.1

/-- Four bytes of memory, and two of data. -/
def fourBytes : Memory := { size := 4, rom := true, base := 0, buffer := .replicate _ 0 }

def twoBytes : Vector (BitVec 8) (2#16).toNat := #v[0x11, 0x22]

/-- At offset 0 no byte is left out. -/
theorem memoryLoadData_iff_fourBytes : Loads fourBytes 2 twoBytes 0 true 0xFF := by
  refine (memoryLoadData_iff (by decide) (by decide)).mpr ⟨by decide, fun i hlate hread => ?_⟩
  exact absurd hread (Nat.not_lt.mpr hlate)

/-- At offset 1 the second byte is left out, and at offset 3 the copy runs out of its buffers. -/
theorem memoryLoadData_wrong :
    ¬Loads fourBytes 2 twoBytes 1 true 0xFF ∧ ¬Loads fourBytes 2 twoBytes 3 true 0xFF ∧
      memoryLoadData fourBytes 2 (some twoBytes) 3 true 0xFF = none := by
  have hnone : memoryLoadData fourBytes 2 (some twoBytes) 3 true 0xFF = none :=
    memoryLoadData_undefined (by decide) (by decide) (by decide)
  refine ⟨?_, ?_, hnone⟩
  · intro h
    have hbytes := congrArg (Option.map fun m : Memory => m.buffer.toList) h
    exact absurd hbytes (by decide)
  · rw [Loads, hnone]
    exact (Option.some_ne_none _).symm

end Load

end Cb6502
