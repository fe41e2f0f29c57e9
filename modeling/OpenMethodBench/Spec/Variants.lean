import OpenMethodBench.Spec.Load

/-! The variants `main_impl` measures in one cache mode, in order, by the keys their rows
are filed under. -/

namespace OMB

section Variants

variable (mode : Text)

def variantKey (hier body group name : String) (arity : ℤ) : Key :=
  ⟨mode, hier.toList, body.toList, group.toList, name.toList, arity⟩

/-- `v_touch1`, `v_touch2` of a hierarchy. -/
def touchRows (hier : String) : List Key :=
  [variantKey mode hier "-" "baseline" "touch" 1, variantKey mode hier "-" "baseline" "touch+touch" 2]

/-- The yardsticks of a hierarchy: `v_vf1`, `v_vf2` and their like. -/
def yardstickRows (hier body : String) : List Key :=
  [variantKey mode hier body "yardstick" "vf" 1, variantKey mode hier body "yardstick" "vf+vf" 2]

/-- `OMB_RUN`, and `OMB_RUN_USE` for the use world. -/
def runRows (body group : String) : List Key :=
  [variantKey mode "main" body group "om vptr" 1, variantKey mode "main" body group "om ref" 1,
    variantKey mode "main" body group "om vptr" 2, variantKey mode "main" body group "om ref" 2]

/-- The reference forms of an inplace registry, whose group and hierarchy share a name. -/
def inplaceRefRows (body group : String) : List Key :=
  [variantKey mode group body group "om ref" 1, variantKey mode group body group "om ref" 2]

/-- `OMB_RUN_INPLACE`. -/
def inplaceRows (group : String) : List Key :=
  touchRows mode group ++ yardstickRows mode group "const" ++ inplaceRefRows mode "const" group

/-- The rows one mode adds. -/
def runOrder : List Key :=
  [variantKey mode "main" "-" "baseline" "probe" 0, variantKey mode "main" "-" "baseline" "direct" 0] ++
  touchRows mode "main" ++ yardstickRows mode "main" "const" ++
  runRows mode "const" "vptr_vector" ++ runRows mode "const" "vptr_map" ++
  runRows mode "const" "flat_map" ++ runRows mode "const" "indirect" ++
  inplaceRows mode "inplace" ++ inplaceRows mode "inplace_ind" ++
  yardstickRows mode "main" "use" ++
  runRows mode "use" "vptr_vector" ++ runRows mode "use" "vptr_map" ++
  runRows mode "use" "flat_map" ++ runRows mode "use" "indirect" ++
  yardstickRows mode "inplace" "use" ++ yardstickRows mode "inplace_ind" "use" ++
  inplaceRefRows mode "use" "inplace" ++ inplaceRefRows mode "use" "inplace_ind"

end Variants

/-- The rows of a file of `matrix.sh`, which measures with flushed caches only. -/
def matrixOrder : List Key := runOrder "clflush".toList

theorem matrixOrder_nodup : matrixOrder.Nodup := by
  decide +kernel

end OMB
