import RangerRisc.Alu

/-! `Register.sv`, `RegisterFile.sv`, `Memory.sv` and `Pmmu.sv`. The memory has
`2^10` words; `Pmmu.sv` drops the byte address to a word address, extends what is
read and merges what is written. -/

namespace RangerRisc

/-- `Register.sv`: loads when `ld` is low. -/
def register {α : Type*} (ld : Bool) (data cur : α) : α := if ld = false then data else cur

/-! ## Register file -/

abbrev Bank := BitVec 5 → Word

/-- `srcA_o`, `srcB_o`: register 0 reads as zero whatever the bank holds there. -/
def Bank.read (bank : Bank) (src : BitVec 5) : Word := if src = 0#5 then 0 else bank src

def Bank.write (bank : Bank) (we : Bool) (dst : BitVec 5) (data : Word) : Bank :=
  if we = false ∧ dst ≠ 0#5 then Function.update bank dst data else bank

/-! ## Memory -/

abbrev Mem := BitVec 10 → Word

def Mem.write (mem : Mem) (wr : Bool) (addr : BitVec 10) (data : Word) : Mem :=
  if wr = false then Function.update mem addr data else mem

/-! ## Pmmu -/

namespace Pmmu

/-- `word_addr` -/
def wordAddr (byteAddr : Word) : BitVec 10 := byteAddr.extractLsb' 2 10
def byteSelector (byteAddr : Word) : BitVec 2 := byteAddr.extractLsb' 0 2
def halfwordSelector (byteAddr : Word) : Bool := byteAddr.getLsbD 1

/-- `signed_op` -/
def signedOp (f : BitVec 3) : Bool := !f.getLsbD 2
def isByteSize (f : BitVec 3) : Prop := f.extractLsb' 0 2 = 0b00#2
def isHalfwordSize (f : BitVec 3) : Prop := f.extractLsb' 0 2 = 0b01#2
def isWordSize (f : BitVec 3) : Prop := f.extractLsb' 0 2 = 0b10#2

instance (f : BitVec 3) : Decidable (isByteSize f) := inferInstanceAs (Decidable (_ = _))
instance (f : BitVec 3) : Decidable (isHalfwordSize f) := inferInstanceAs (Decidable (_ = _))
instance (f : BitVec 3) : Decidable (isWordSize f) := inferInstanceAs (Decidable (_ = _))

def byteData (byteAddr storage : Word) : BitVec 8 :=
  mux4 (byteSelector byteAddr) (storage.extractLsb' 0 8) (storage.extractLsb' 8 8)
    (storage.extractLsb' 16 8) (storage.extractLsb' 24 8)

def halfwordData (byteAddr storage : Word) : BitVec 16 :=
  mux2 (halfwordSelector byteAddr) (storage.extractLsb' 0 16) (storage.extractLsb' 16 16)

/-- What `rd_o` shows of the memory output while a read is active. -/
def loadData (f : BitVec 3) (byteAddr storage : Word) : Word :=
  let sign : Bool := signedOp f && (if isByteSize f then (byteData byteAddr storage).getLsbD 7
    else (halfwordData byteAddr storage).getLsbD 15)
  if isByteSize f then BitVec.fill 24 sign ++ byteData byteAddr storage
  else if isHalfwordSize f then BitVec.fill 16 sign ++ halfwordData byteAddr storage
  else storage

/-- `rd_o` -/
def rdOut (f : BitVec 3) (byteAddr : Word) (mrd : Bool) (storage : Word) : Word :=
  if mrd = false then loadData f byteAddr storage else storage

def storeByteData (byteAddr wd storage : Word) : Word :=
  mux4 (byteSelector byteAddr)
    (storage.extractLsb' 8 24 ++ wd.extractLsb' 0 8)
    (storage.extractLsb' 16 16 ++ wd.extractLsb' 0 8 ++ storage.extractLsb' 0 8)
    (storage.extractLsb' 24 8 ++ wd.extractLsb' 0 8 ++ storage.extractLsb' 0 16)
    (wd.extractLsb' 0 8 ++ storage.extractLsb' 0 24)

def storeHalfwordData (byteAddr wd storage : Word) : Word :=
  mux2 (halfwordSelector byteAddr)
    (storage.extractLsb' 16 16 ++ wd.extractLsb' 0 16)
    (wd.extractLsb' 0 16 ++ storage.extractLsb' 0 16)

/-- `storage_data_in` -/
def storeData (f : BitVec 3) (byteAddr wd storage : Word) : Word :=
  if isByteSize f then storeByteData byteAddr wd storage
  else if isHalfwordSize f then storeHalfwordData byteAddr wd storage
  else wd

section Sizes
variable {f : BitVec 3} (byteAddr wd storage : Word)

theorem loadData_byte (h : isByteSize f) : loadData f byteAddr storage =
    BitVec.fill 24 (signedOp f && (byteData byteAddr storage).getLsbD 7) ++
      byteData byteAddr storage := by
  simp [loadData, h]

theorem loadData_halfword (h : isHalfwordSize f) : loadData f byteAddr storage =
    BitVec.fill 16 (signedOp f && (halfwordData byteAddr storage).getLsbD 15) ++
      halfwordData byteAddr storage := by
  have hb : ¬ isByteSize f := by
    unfold isByteSize
    rw [show f.extractLsb' 0 2 = 0b01#2 from h]
    decide
  simp [loadData, h, hb]

theorem loadData_word (h : isWordSize f) : loadData f byteAddr storage = storage := by
  unfold isWordSize at h
  simp [loadData, isByteSize, isHalfwordSize, h]

theorem storeData_byte (h : isByteSize f) :
    storeData f byteAddr wd storage = storeByteData byteAddr wd storage := by
  simp [storeData, h]

theorem storeData_halfword (h : isHalfwordSize f) :
    storeData f byteAddr wd storage = storeHalfwordData byteAddr wd storage := by
  unfold isHalfwordSize at h
  simp [storeData, isByteSize, isHalfwordSize, h]

/-- A word store does not look at the memory output. -/
theorem storeData_word (h : isWordSize f) : storeData f byteAddr wd storage = wd := by
  unfold isWordSize at h
  simp [storeData, isByteSize, isHalfwordSize, h]

end Sizes

end Pmmu

end RangerRisc
