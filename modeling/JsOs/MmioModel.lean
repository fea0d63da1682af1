import JsOs.PageTableModel

/-!
# Mapping a device

`platform_map_mmio` of the kernel. Next to the state it keeps, for the record, every page it has
asked `map_mmio_page` for. A null pointer is 0.
-/

namespace JsOs.MmioModel

open MachineWords PageTableModel

/-- A call of `map_mmio_page` for a page and what it returned. -/
structure MmioCall where
  page : ℕ
  mapped : Bool
  deriving DecidableEq, Repr

/-- There are no more pages below `2 ^ 64`. -/
def mmioFuel : ℕ := 2 ^ 52

section Mapping

variable (cpu : Processor)

/-- The loop of `platform_map_mmio`, from `page` on; `last` is its variable `end`. -/
def mapPages (last : ℕ) : ℕ → ℕ → PlatformState → List MmioCall →
    Option (Bool × PlatformState × List MmioCall)
  | 0, _, _, _ => none
  | fuel + 1, page, st, calls =>
    if page < last then
      let (mapped, st) := mapMmioPage cpu st (add64 st.directMapOffset page) page
      let calls := calls ++ [⟨page, mapped⟩]
      if !mapped then some (false, st, calls)
      else mapPages last fuel (add64 page pageSize) st calls
    else some (true, st, calls)

/-- The conditions on which nothing is mapped. -/
def Refused (st : PlatformState) (physicalAddress length : ℕ) : Prop :=
  st.directMapOffset = 0 ∨ st.executableVirtualBase = 0 ∨ length = 0 ∨
    physicalAddress > sub64 sizeMax length

instance (st : PlatformState) (physicalAddress length : ℕ) :
    Decidable (Refused st physicalAddress length) := by
  unfold Refused
  infer_instance

def platformMapMmio (st : PlatformState) (physicalAddress length : ℕ) :
    Option (ℕ × PlatformState × List MmioCall) :=
  if Refused st physicalAddress length then some (0, st, [])
  else
    let start := physicalAddress &&& not64 (pageSize - 1)
    let last := sub64 (add64 (add64 physicalAddress length) pageSize) 1 &&& not64 (pageSize - 1)
    (mapPages cpu last mmioFuel start st []).map fun (mapped, st, calls) =>
      (if mapped then add64 st.directMapOffset physicalAddress else 0, st, calls)

end Mapping

end JsOs.MmioModel
