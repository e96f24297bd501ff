import DeliceOS.Acpi.Madt

/-!
# Acpi.CoreId

`Apic::check_apic(core_id)`, meant to turn the number of a core into its APIC ID. The `for` loop
never moves `ii`, and every round looks at the one slot `cpu_nodes[core_id]`.

* `checkApic_ok`: all it ever returns is 0.
* `checkApic_iff`: when that is the index of the marked slot with number `core_id`.
-/

namespace DeliceOS
namespace Acpi

/-- The `for` loop, which is never left by its condition; `none` while the fuel runs out. -/
def checkApicLoop (nodes : CpuNodes) (coreId : Nat) :
    Nat → Nat → Nat → Option (Except Fault Nat)
  | 0, _, _ => none
  | fuel + 1, ii, cId =>
    if ii ≤ maxCpus then
      if h : coreId < maxCpus then
        if (nodes ⟨coreId, h⟩).toNat ≠ coreId then checkApicLoop nodes coreId fuel ii cId
        else if cId = coreId then some (.ok ii)
        else checkApicLoop nodes coreId fuel ii (cId + 1)
      else some (.error (.outside coreId))
    else some (.ok 0)

def checkApic (fuel : Nat) (nodes : CpuNodes) (coreId : Nat) : Option (Except Fault Nat) :=
  checkApicLoop nodes coreId fuel 0 0

instance (nodes : CpuNodes) (i : Fin maxCpus) : Decidable (Present nodes i) :=
  inferInstanceAs (Decidable (_ = _))

/-- The marked slots in ascending order. -/
def marked (nodes : CpuNodes) : List (Fin maxCpus) :=
  (List.finRange maxCpus).filter (Present nodes ·)

theorem checkApicLoop_ok {nodes : CpuNodes} {coreId v : Nat} : ∀ {fuel cId : Nat},
    checkApicLoop nodes coreId fuel 0 cId = some (.ok v) → v = 0 := by
  intro fuel
  induction fuel with
  | zero => intro cId h; cases h
  | succ fuel ih =>
    intro cId h
    rw [checkApicLoop, if_pos (Nat.zero_le _)] at h
    split at h
    · split at h
      · exact ih h
      · split at h
        · cases h; rfl
        · exact ih h
    · cases h

theorem checkApic_ok {fuel : Nat} {nodes : CpuNodes} {coreId v : Nat}
    (h : checkApic fuel nodes coreId = some (.ok v)) : v = 0 := checkApicLoop_ok h

theorem marked_sorted (nodes : CpuNodes) : (marked nodes).Pairwise (· < ·) :=
  (List.pairwise_lt_finRange maxCpus).filter _

theorem mem_marked {nodes : CpuNodes} {i : Fin maxCpus} : i ∈ marked nodes ↔ Present nodes i := by
  simp [marked]

/-- Slot 0 can only be the first of the marked slots. -/
theorem index_of_zero {nodes : CpuNodes} {k : Nat} (hk : k < (marked nodes).length)
    (h : (marked nodes)[k].val = 0) : k = 0 := by
  by_contra hne
  have hlt := List.pairwise_iff_getElem.mp (marked_sorted nodes) 0 k (by omega) hk (by omega)
  rw [Fin.lt_def, h] at hlt
  omega

/-- The marked slot with number `core_id` is returned only for core 0 with slot 0 marked. -/
theorem checkApic_iff {nodes : CpuNodes} {coreId : Nat} (hk : coreId < (marked nodes).length) :
    (∃ fuel, checkApic fuel nodes coreId = some (.ok (marked nodes)[coreId].val)) ↔
      coreId = 0 ∧ Present nodes ⟨0, by decide⟩ := by
  constructor
  · rintro ⟨fuel, h⟩
    have hzero := checkApic_ok h
    have hslot : (marked nodes)[coreId] = ⟨0, by decide⟩ := Fin.ext hzero
    refine ⟨index_of_zero hk hzero, ?_⟩
    rw [← hslot]
    exact mem_marked.mp (List.getElem_mem hk)
  · rintro ⟨rfl, hpres⟩
    obtain ⟨k, hk', hslot⟩ := List.getElem_of_mem (mem_marked.mpr hpres)
    have hk0 := index_of_zero hk' (by rw [hslot])
    subst hk0
    refine ⟨1, ?_⟩
    unfold Present at hpres
    rw [hslot, checkApic, checkApicLoop, if_pos (Nat.zero_le _), dif_pos (by decide),
      if_neg (by simpa using hpres), if_pos rfl]

theorem checkApic_iff_zero : ∃ fuel, checkApic fuel (fun _ => 0) 0 = some (.ok 0) :=
  (checkApic_iff (show 0 < (marked fun _ => 0).length by decide)).mpr ⟨rfl, by decide⟩

/-- With all slots marked, core 1 is told 0. -/
theorem checkApic_stuck : ¬ ∀ (nodes : CpuNodes) (coreId : Nat) (h : coreId < (marked nodes).length),
    ∃ fuel, checkApic fuel nodes coreId = some (.ok (marked nodes)[coreId].val) := by
  intro h
  obtain ⟨fuel, hrun⟩ := h (fun i => BitVec.ofNat 8 i) 1 (by decide)
  have hzero := checkApic_ok hrun
  revert hzero
  decide

end Acpi
end DeliceOS
