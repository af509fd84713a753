import Mathlib.Algebra.Group.Nat.Defs

/-! What the driver's modules share: error codes and the sizes of its address arithmetic. -/
namespace Gsgpu

/-- The error codes the modelled functions return themselves; `other` is one passed on from a
function outside the driver. -/
inductive Errno
  | ebusy
  | ecanceled
  | efault
  | einval
  | enodata
  | enoent
  | enomem
  | eperm
  | erestartsys
  | other (code : ℕ)
deriving DecidableEq

/-- `GSGPU_GPU_PAGE_SHIFT`. -/
def gpuPageShift : ℕ := 14

/-- `GSGPU_GPU_PAGE_SIZE`. -/
def gpuPageSize : ℕ := 2 ^ gpuPageShift

/-- `PAGE_SIZE` of the kernels the driver is built for. -/
def pageSize : ℕ := 2 ^ 14

end Gsgpu
