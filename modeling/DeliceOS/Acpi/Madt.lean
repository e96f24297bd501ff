import DeliceOS.Acpi.Search
import DeliceOS.Base.Records
import Mathlib.Logic.Function.Basic

/-!
# Acpi.Madt

Discovery of the CPUs: `Apic::init` searches two ranges for the RSDP, goes through the tables its
RSDT lists and, in each with signature "APIC", through the interrupt-controller records, storing
an id of every Local APIC record in `cpu_nodes`. The result is `none` while the fuel of a record
loop runs out, and a fault when a store leaves the array. Loads are at physical addresses.

The cursor stays 8 bytes behind the record it looks at and is itself compared with the end of the
table, so records are read until 8 bytes past the end; the id stored is the processor UID.

* `entries_toNat`: the signed 32-bit count of RSDT entries, for every length field.
* `init_sound`, `init_complete`: what `init` ends with, in terms of the records in memory.
* `cpu_discovery`: when the marked slots are the APIC IDs of a MADT.
-/

namespace DeliceOS
namespace Acpi

open Base

def maxCpus : Nat := 18

abbrev CpuNodes := Fin maxCpus → BitVec 8

/-- An access to `cpu_nodes` outside its bounds. -/
inductive Fault where
  | outside (index : Nat)
  deriving DecidableEq

/-- `cpu_nodes[lapic_id] = lapic_id`. -/
def store (lapicId : BitVec 8) (nodes : CpuNodes) : Except Fault CpuNodes :=
  if h : lapicId.toNat < maxCpus then .ok (Function.update nodes ⟨lapicId.toNat, h⟩ lapicId)
  else .error (.outside lapicId.toNat)

def madtLapic : BitVec 8 := 0

/-- The `switch` on the record at `p`. -/
def record (m : Mem) (p : Nat) (nodes : CpuNodes) : Except Fault CpuNodes :=
  if m p = madtLapic then store (m (p + 2)) nodes else .ok nodes

/-- `len` of the record at `p`. -/
def recordSize (m : Mem) (p : Nat) : Nat := (m (p + 1)).toNat

/-- The `while` loop; `payload` is 8 bytes into `acpi_madt`. -/
def madtLoop (m : Mem) (endApic : Nat) : Nat → Nat → CpuNodes → Option (Except Fault CpuNodes)
  | 0, _, _ => none
  | fuel + 1, madtPtr, nodes =>
    if madtPtr < endApic then
      match record m (madtPtr + 8) nodes with
      | .ok nodes => madtLoop m endApic fuel (madtPtr + recordSize m (madtPtr + 8)) nodes
      | .error e => some (.error e)
    else some (.ok nodes)

/-- The records the loop looks at, whatever it stores. -/
def madtRecords (m : Mem) (endApic : Nat) : Nat → Nat → Option (List Nat)
  | 0, _ => none
  | fuel + 1, madtPtr =>
    if madtPtr < endApic then
      (madtRecords m endApic fuel (madtPtr + recordSize m (madtPtr + 8))).map ((madtPtr + 8) :: ·)
    else some []

/-- `sizeof(struct acpisdt)`. -/
def sdtSize : Nat := 36

/-- `length` of the table at `t`. -/
def sdtLength (m : Mem) (t : Nat) : BitVec 32 := m.read32 (t + 4)

/-- `(rsdt_hdr->length - sizeof(struct acpisdt)) / 4` as an `int`. -/
def entries (length : BitVec 32) : BitVec 32 :=
  ((length.setWidth 64 - BitVec.ofNat 64 sdtSize) / 4).setWidth 32

/-- `entries_ptr[ii]`. -/
def entry (m : Mem) (rsdtHdr ii : Nat) : Nat := (m.read32 (rsdtHdr + sdtSize + 4 * ii)).toNat

/-- The `for` loop over the remaining values of `ii`. -/
def rsdtLoop (fuel : Nat) (m : Mem) (rsdtHdr : Nat) :
    List Nat → CpuNodes → Option (Except Fault CpuNodes)
  | [], nodes => some (.ok nodes)
  | ii :: rest, nodes =>
    let acpiPtr := entry m rsdtHdr ii
    if memcmp (ptr m acpiPtr) (literal apic) 4 = 0 then
      match madtLoop m (acpiPtr + (sdtLength m acpiPtr).toNat) fuel (acpiPtr + sdtSize) nodes with
      | some (.ok nodes) => rsdtLoop fuel m rsdtHdr rest nodes
      | r => r
    else rsdtLoop fuel m rsdtHdr rest nodes

/-- `rdsp_ptr->rsdt_addr`. -/
def rsdtAddr (m : Mem) (rsdp : Nat) : Nat := (m.read32 (rsdp + 16)).toNat

/-- `iterate_check` over the remaining ranges, with its return value. -/
def iterateCheck (fuel : Nat) (m : Mem) :
    List (BitVec 32 × BitVec 32) → CpuNodes → Option (Except Fault (CpuNodes × Bool))
  | [], nodes => some (.ok (nodes, false))
  | (low, high) :: rest, nodes =>
    match checkRsdt m low high with
    | some rsdp =>
      let rsdtHdr := rsdtAddr m rsdp
      (rsdtLoop fuel m rsdtHdr (List.range (entries (sdtLength m rsdtHdr)).toInt.toNat) nodes).map
        (Except.map (·, true))
    | none => (iterateCheck fuel m rest nodes).map (Except.map fun r => (r.1, false))

def init (fuel : Nat) (m : Mem) (nodes : CpuNodes) : Option (Except Fault CpuNodes) :=
  let paddr : BitVec 32 := (m.read16 0x40e).setWidth 32 <<< 4
  (iterateCheck fuel m [(paddr, paddr + 1024), (0xe0000, 0x100000)] nodes).map (Except.map Prod.fst)

/-- The test of `Apic::check_apic` on slot `i`. -/
def Present (nodes : CpuNodes) (i : Fin maxCpus) : Prop := (nodes i).toNat = i

/-! ## The tables in memory -/

/-- The addresses searched for the RSDP. -/
def searched (m : Mem) : List Nat :=
  steps (16 * (m.read16 0x40e).toNat) (16 * (m.read16 0x40e).toNat + 1024) ++
    steps 0xe0000 0x100000

/-- The tables an RSDT lists. -/
def listed (m : Mem) (rsdt : Nat) : List Nat :=
  (List.range (((sdtLength m rsdt).toNat - sdtSize) / 4)).map (entry m rsdt)

/-- The tables with signature "APIC" that the RSDT of the first RSDP signature lists. -/
def madts (m : Mem) : List Nat :=
  match (searched m).find? (HasSignature m rsdPtr ·) with
  | some rsdp => (listed m (rsdtAddr m rsdp)).filter (HasSignature m apic ·)
  | none => []

def tableEnd (m : Mem) (t : Nat) : Nat := t + (sdtLength m t).toNat

/-- Where the records of the MADT at `t` begin. -/
def firstRecord (t : Nat) : Nat := t + sdtSize + 8

def IsLapic (m : Mem) (p : Nat) : Prop := m p = madtLapic

instance (m : Mem) (p : Nat) : Decidable (IsLapic m p) := inferInstanceAs (Decidable (_ = _))

def processorUid (m : Mem) (p : Nat) : Nat := (m (p + 2)).toNat
def apicId (m : Mem) (p : Nat) : Nat := (m (p + 3)).toNat

/-- The loop over the table at `t` comes to the record at `p`. -/
def RecordRead (m : Mem) (t p : Nat) : Prop :=
  Reached (recordSize m) (tableEnd m t + 8) (firstRecord t) p

/-- The loop over the table ends, with every store inside `cpu_nodes`. -/
def Readable (m : Mem) (t : Nat) : Prop :=
  ∀ p, RecordRead m t p → 0 < recordSize m p ∧ (IsLapic m p → processorUid m p < maxCpus)

/-- The loop over the table marks slot `i`. -/
def Marks (m : Mem) (t i : Nat) : Prop :=
  ∃ p, RecordRead m t p ∧ IsLapic m p ∧ processorUid m p = i

/-- A MADT at `t` whose records `es` fill it exactly. -/
structure WellFormedMadt (m : Mem) (t : Nat) (es : List Nat) : Prop where
  signature : HasSignature m apic t
  tiles : Tiles (recordSize m) (tableEnd m t) (firstRecord t) es
  sizes : ∀ p ∈ es, 2 ≤ recordSize m p
  lapic : ∀ p ∈ es, IsLapic m p → recordSize m p = 8

/-! ## Storing the ids -/

theorem record_present {m : Mem} {p : Nat} {nodes nodes' : CpuNodes}
    (h : record m p nodes = .ok nodes') : (IsLapic m p → processorUid m p < maxCpus) ∧
      ∀ i, Present nodes' i ↔ Present nodes i ∨ (IsLapic m p ∧ processorUid m p = i) := by
  unfold record at h
  by_cases hp : m p = madtLapic
  · rw [if_pos hp, store] at h
    split at h
    · rename_i hid
      cases h
      refine ⟨fun _ => hid, fun i => ?_⟩
      simp only [Present, Function.update_apply, IsLapic, processorUid]
      by_cases hi : i = ⟨(m (p + 2)).toNat, hid⟩
      · rw [if_pos hi, hi]
        simp [hp]
      · rw [if_neg hi]
        have hne : (m (p + 2)).toNat ≠ i := fun heq => hi (Fin.ext heq.symm)
        simp [hne]
    · cases h
  · rw [if_neg hp] at h
    cases h
    simp [IsLapic, hp]

theorem record_total {m : Mem} {p : Nat} (h : IsLapic m p → processorUid m p < maxCpus)
    (nodes : CpuNodes) : ∃ nodes', record m p nodes = .ok nodes' := by
  unfold record
  by_cases hp : m p = madtLapic
  · have hid : (m (p + 2)).toNat < maxCpus := h hp
    rw [if_pos hp, store, dif_pos hid]
    exact ⟨_, rfl⟩
  · rw [if_neg hp]
    exact ⟨_, rfl⟩

/-- The stores of the records `l`, in order. -/
def storeAll (m : Mem) : List Nat → CpuNodes → Except Fault CpuNodes
  | [], nodes => .ok nodes
  | p :: l, nodes =>
    match record m p nodes with
    | .ok nodes => storeAll m l nodes
    | .error e => .error e

theorem storeAll_present {m : Mem} {l : List Nat} : ∀ {nodes nodes' : CpuNodes},
    storeAll m l nodes = .ok nodes' → (∀ p ∈ l, IsLapic m p → processorUid m p < maxCpus) ∧
      ∀ i, Present nodes' i ↔
        Present nodes i ∨ ∃ p ∈ l, IsLapic m p ∧ processorUid m p = i := by
  induction l with
  | nil => intro nodes nodes' h; cases h; simp
  | cons p l ih =>
    intro nodes nodes' h
    simp only [storeAll] at h
    cases hr : record m p nodes with
    | error e => rw [hr] at h; cases h
    | ok mid =>
      rw [hr] at h
      obtain ⟨hb, hpres⟩ := ih h
      obtain ⟨hb1, hpres1⟩ := record_present hr
      refine ⟨?_, fun i => ?_⟩
      · intro r hmem
        rcases List.mem_cons.mp hmem with rfl | hmem
        · exact hb1
        · exact hb r hmem
      · rw [hpres, hpres1, or_assoc]
        simp

theorem storeAll_total {m : Mem} {l : List Nat} :
    (∀ p ∈ l, IsLapic m p → processorUid m p < maxCpus) →
      ∀ nodes, ∃ nodes', storeAll m l nodes = .ok nodes' := by
  induction l with
  | nil => intro _ nodes; exact ⟨nodes, rfl⟩
  | cons p l ih =>
    intro h nodes
    obtain ⟨mid, hmid⟩ := record_total (h p (by simp)) nodes
    obtain ⟨nodes', hrest⟩ := ih (fun r hr => h r (by simp [hr])) mid
    exact ⟨nodes', by simp only [storeAll, hmid, hrest]⟩

/-! ## The record loop -/

theorem madtLoop_ok_iff {m : Mem} {e : Nat} {nodes' : CpuNodes} : ∀ {fuel c : Nat}
    {nodes : CpuNodes}, madtLoop m e fuel c nodes = some (.ok nodes') ↔
      ∃ l, madtRecords m e fuel c = some l ∧ storeAll m l nodes = .ok nodes' := by
  intro fuel
  induction fuel with
  | zero => intro c nodes; simp [madtLoop, madtRecords]
  | succ fuel ih =>
    intro c nodes
    by_cases hc : c < e
    · simp only [madtLoop, madtRecords, if_pos hc, Option.map_eq_some_iff]
      cases hr : record m (c + 8) nodes with
      | error err =>
        constructor
        · intro h; cases h
        · rintro ⟨_, ⟨l, _, rfl⟩, hs⟩
          simp [storeAll, hr] at hs
      | ok mid =>
        simp only [ih]
        constructor
        · rintro ⟨l, hl, hs⟩
          exact ⟨_, ⟨l, hl, rfl⟩, by simp only [storeAll, hr, hs]⟩
        · rintro ⟨_, ⟨l, hl, rfl⟩, hs⟩
          simp only [storeAll, hr] at hs
          exact ⟨l, hl, hs⟩
    · simp only [madtLoop, madtRecords, if_neg hc]
      simp [storeAll]

theorem madtRecords_sound {m : Mem} {e : Nat} : ∀ {fuel c : Nat} {l : List Nat},
    madtRecords m e fuel c = some l → Records (recordSize m) (e + 8) (c + 8) l := by
  intro fuel
  induction fuel with
  | zero => intro c l h; cases h
  | succ fuel ih =>
    intro c l h
    simp only [madtRecords] at h
    split at h
    · rename_i hc
      obtain ⟨rest, hrest, rfl⟩ := Option.map_eq_some_iff.mp h
      have hrec := ih hrest
      rw [Nat.add_right_comm] at hrec
      refine .cons (by omega) (Nat.pos_of_ne_zero fun h0 => ?_) hrec
      -- a record of size 0 is followed by itself
      rw [h0, Nat.add_zero (c + 8)] at hrec
      cases hrec with
      | nil hp => omega
      | cons _ hs _ => omega
    · cases h
      exact .nil (by omega)

theorem madtRecords_complete {m : Mem} {e : Nat} : ∀ {l : List Nat} {fuel c : Nat},
    Records (recordSize m) (e + 8) (c + 8) l → l.length < fuel →
      madtRecords m e fuel c = some l := by
  intro l
  induction l with
  | nil =>
    intro fuel c h hf
    obtain ⟨fuel, rfl⟩ := Nat.exists_eq_succ_of_ne_zero (Nat.ne_of_gt hf)
    cases h with
    | nil hp => simp only [madtRecords, if_neg (show ¬ c < e by omega)]
  | cons p l ih =>
    intro fuel c h hf
    obtain ⟨fuel, rfl⟩ := Nat.exists_eq_succ_of_ne_zero (show fuel ≠ 0 by omega)
    cases h with
    | cons hp _ h =>
      rw [Nat.add_right_comm] at h
      simp only [List.length_cons] at hf
      simp only [madtRecords, if_pos (show c < e by omega), ih h (show l.length < fuel by omega),
        Option.map_some]

theorem recordRead_iff {m : Mem} {t p : Nat} {l : List Nat}
    (h : Records (recordSize m) (tableEnd m t + 8) (firstRecord t) l) :
    RecordRead m t p ↔ p ∈ l := Reached.mem_iff h

theorem madtLoop_sound {m : Mem} {t fuel : Nat} {nodes nodes' : CpuNodes}
    (h : madtLoop m (tableEnd m t) fuel (t + sdtSize) nodes = some (.ok nodes')) :
    Readable m t ∧ ∀ i : Fin maxCpus, Present nodes' i ↔ Present nodes i ∨ Marks m t i := by
  obtain ⟨l, hl, hs⟩ := madtLoop_ok_iff.mp h
  have hrec := madtRecords_sound hl
  obtain ⟨hb, hpres⟩ := storeAll_present hs
  refine ⟨fun p hp => ⟨exists_records_iff.mp ⟨l, hrec⟩ p hp, ?_⟩, fun i => ?_⟩
  · exact hb p ((recordRead_iff hrec).mp hp)
  · simp only [hpres, Marks, recordRead_iff hrec]

theorem madtLoop_complete {m : Mem} {t : Nat} (h : Readable m t) :
    ∃ bound, ∀ fuel, bound < fuel → ∀ nodes, ∃ nodes',
      madtLoop m (tableEnd m t) fuel (t + sdtSize) nodes = some (.ok nodes') := by
  obtain ⟨l, hrec⟩ := exists_records_iff.mpr fun p hp => (h p hp).1
  refine ⟨l.length, fun fuel hf nodes => ?_⟩
  obtain ⟨nodes', hs⟩ :=
    storeAll_total (fun p hp => (h p ((recordRead_iff hrec).mpr hp)).2) nodes
  exact ⟨nodes', madtLoop_ok_iff.mpr ⟨l, madtRecords_complete hrec hf, hs⟩⟩

/-! ## The tables of the RSDT -/

theorem entries_toNat (length : BitVec 32) :
    (entries length).toInt.toNat = (length.toNat - sdtSize) / 4 := by
  have hlt := length.isLt
  have hn : (entries length).toNat = (2 ^ 64 - 36 + length.toNat) % 2 ^ 64 / 4 % 2 ^ 32 := by
    simp only [entries, sdtSize, BitVec.toNat_setWidth, BitVec.toNat_udiv, BitVec.toNat_sub,
      BitVec.toNat_ofNat]
    rw [Nat.mod_eq_of_lt (show length.toNat < 2 ^ 64 by omega)]
    rfl
  rw [BitVec.toInt_eq_toNat_cond, hn, sdtSize]
  split <;> omega

theorem rsdtLoop_sound {fuel : Nat} {m : Mem} {rsdt : Nat} {iis : List Nat} :
    ∀ {nodes nodes' : CpuNodes}, rsdtLoop fuel m rsdt iis nodes = some (.ok nodes') →
      (∀ t ∈ (iis.map (entry m rsdt)).filter (HasSignature m apic ·), Readable m t) ∧
      ∀ i : Fin maxCpus, Present nodes' i ↔ Present nodes i ∨
        ∃ t ∈ (iis.map (entry m rsdt)).filter (HasSignature m apic ·), Marks m t i := by
  induction iis with
  | nil => intro nodes nodes' h; cases h; simp
  | cons ii iis ih =>
    intro nodes nodes' h
    simp only [rsdtLoop] at h
    by_cases hsig : HasSignature m apic (entry m rsdt ii)
    · rw [if_pos ((memcmp_apic m _).mpr hsig)] at h
      split at h
      · rename_i mid hmid
        obtain ⟨hr, hpres⟩ := ih h
        obtain ⟨hr1, hpres1⟩ := madtLoop_sound hmid
        rw [List.map_cons, List.filter_cons_of_pos (by simpa using hsig)]
        refine ⟨fun t ht => ?_, fun i => ?_⟩
        · rcases List.mem_cons.mp ht with rfl | ht
          · exact hr1
          · exact hr t ht
        · rw [hpres, hpres1, or_assoc]
          simp
      · rename_i hne
        exact absurd h (hne nodes')
    · rw [if_neg (mt (memcmp_apic m _).mp hsig)] at h
      rw [List.map_cons, List.filter_cons_of_neg (by simpa using hsig)]
      exact ih h

theorem rsdtLoop_complete {m : Mem} {rsdt : Nat} {iis : List Nat} :
    (∀ t ∈ (iis.map (entry m rsdt)).filter (HasSignature m apic ·), Readable m t) →
      ∃ bound, ∀ fuel, bound < fuel → ∀ nodes, ∃ nodes',
        rsdtLoop fuel m rsdt iis nodes = some (.ok nodes') := by
  induction iis with
  | nil => intro _; exact ⟨0, fun _ _ nodes => ⟨nodes, rfl⟩⟩
  | cons ii iis ih =>
    intro h
    by_cases hsig : HasSignature m apic (entry m rsdt ii)
    · rw [List.map_cons, List.filter_cons_of_pos (by simpa using hsig)] at h
      obtain ⟨b, hb⟩ := ih fun t ht => h t (by simp [ht])
      obtain ⟨b1, hb1⟩ := madtLoop_complete (h (entry m rsdt ii) (by simp))
      refine ⟨max b b1, fun fuel hf nodes => ?_⟩
      obtain ⟨mid, hmid⟩ := hb1 fuel (by omega) nodes
      obtain ⟨nodes', hrest⟩ := hb fuel (by omega) mid
      refine ⟨nodes', ?_⟩
      rw [tableEnd] at hmid
      simp only [rsdtLoop, if_pos ((memcmp_apic m _).mpr hsig), hmid, hrest]
    · rw [List.map_cons, List.filter_cons_of_neg (by simpa using hsig)] at h
      obtain ⟨b, hb⟩ := ih h
      refine ⟨b, fun fuel hf nodes => ?_⟩
      simp only [rsdtLoop, if_neg (mt (memcmp_apic m _).mp hsig)]
      exact hb fuel hf nodes

/-! ## The search for the RSDP -/

theorem iterateCheck_eq (fuel : Nat) (m : Mem) (nodes : CpuNodes)
    (ranges : List (BitVec 32 × BitVec 32)) :
    (iterateCheck fuel m ranges nodes).map (Except.map Prod.fst) =
      match (ranges.flatMap fun r => steps r.1.toNat r.2.toNat).find? (HasSignature m rsdPtr ·) with
      | some rsdp => rsdtLoop fuel m (rsdtAddr m rsdp)
          (List.range (entries (sdtLength m (rsdtAddr m rsdp))).toInt.toNat) nodes
      | none => some (.ok nodes) := by
  have hmap : ∀ {α β : Type} (f : α → β) (g : β → α) (_ : ∀ x, g (f x) = x)
      (r : Option (Except Fault α)), (r.map (Except.map f)).map (Except.map g) = r := by
    intro α β f g hfg r
    rcases r with _ | (e | x)
    · rfl
    · rfl
    · simp [Except.map, hfg]
  induction ranges with
  | nil => rfl
  | cons range ranges ih =>
    obtain ⟨low, high⟩ := range
    rw [List.flatMap_cons, List.find?_append]
    simp only [iterateCheck, checkRsdt, checkRsdtLoop_eq_find?]
    cases (steps low.toNat high.toNat).find? (HasSignature m rsdPtr ·) with
    | some rsdp => exact hmap _ _ (fun _ => rfl) _
    | none =>
      rw [Option.none_or, ← ih, Option.map_map]
      congr 1
      funext r
      cases r <;> rfl

theorem paddr_toNat (m : Mem) :
    ((m.read16 0x40e).setWidth 32 <<< 4).toNat = 16 * (m.read16 0x40e).toNat := by
  have hlt := (m.read16 0x40e).isLt
  rw [BitVec.toNat_shiftLeft, BitVec.toNat_setWidth, Nat.shiftLeft_eq,
    Nat.mod_eq_of_lt (show (m.read16 0x40e).toNat < 2 ^ 32 by omega),
    Nat.mod_eq_of_lt (by omega), Nat.mul_comm]

theorem searched_eq (m : Mem) :
    ([((m.read16 0x40e).setWidth 32 <<< 4, (m.read16 0x40e).setWidth 32 <<< 4 + 1024),
      (0xe0000, 0x100000)] : List (BitVec 32 × BitVec 32)).flatMap
        (fun r => steps r.1.toNat r.2.toNat) = searched m := by
  have hlt := (m.read16 0x40e).isLt
  have hhigh : ((m.read16 0x40e).setWidth 32 <<< 4 + (1024 : BitVec 32)).toNat =
      16 * (m.read16 0x40e).toNat + 1024 := by
    rw [BitVec.toNat_add, paddr_toNat]
    exact Nat.mod_eq_of_lt (show 16 * (m.read16 0x40e).toNat + 1024 < 2 ^ 32 by omega)
  rw [List.flatMap_cons, List.flatMap_cons, List.flatMap_nil, List.append_nil, searched]
  simp only [hhigh, paddr_toNat]
  have h1 : (0xe0000 : BitVec 32).toNat = 0xe0000 := by decide
  have h2 : (0x100000 : BitVec 32).toNat = 0x100000 := by decide
  rw [h1, h2]

theorem init_eq (fuel : Nat) (m : Mem) (nodes : CpuNodes) :
    init fuel m nodes =
      match (searched m).find? (HasSignature m rsdPtr ·) with
      | some rsdp => rsdtLoop fuel m (rsdtAddr m rsdp)
          (List.range (((sdtLength m (rsdtAddr m rsdp)).toNat - sdtSize) / 4)) nodes
      | none => some (.ok nodes) := by
  rw [init, iterateCheck_eq, searched_eq]
  simp only [entries_toNat]

theorem init_sound {fuel : Nat} {m : Mem} {nodes nodes' : CpuNodes}
    (h : init fuel m nodes = some (.ok nodes')) :
    (∀ t ∈ madts m, Readable m t) ∧
      ∀ i : Fin maxCpus, Present nodes' i ↔ Present nodes i ∨ ∃ t ∈ madts m, Marks m t i := by
  rw [init_eq] at h
  unfold madts
  cases hf : (searched m).find? (HasSignature m rsdPtr ·) with
  | some rsdp =>
    rw [hf] at h
    exact rsdtLoop_sound h
  | none =>
    rw [hf] at h
    cases h
    simp

theorem init_complete {m : Mem} (h : ∀ t ∈ madts m, Readable m t) (nodes : CpuNodes) :
    ∃ fuel nodes', init fuel m nodes = some (.ok nodes') := by
  simp only [init_eq]
  unfold madts at h
  cases hf : (searched m).find? (HasSignature m rsdPtr ·) with
  | some rsdp =>
    rw [hf] at h
    obtain ⟨bound, hb⟩ := rsdtLoop_complete h
    obtain ⟨nodes', hn⟩ := hb (bound + 1) (by omega) nodes
    exact ⟨bound + 1, nodes', hn⟩
  | none => exact ⟨0, nodes, rfl⟩

/-! ## Discovery -/

/-- From a zeroed array, `init` ends with exactly the slots marked whose index is the APIC ID of a
Local APIC record among `es`. -/
def Discovers (m : Mem) (es : List Nat) : Prop :=
  ∃ fuel nodes, init fuel m (fun _ => 0) = some (.ok nodes) ∧
    ∀ i : Fin maxCpus, Present nodes i ↔ ∃ p ∈ es, IsLapic m p ∧ apicId m p = i

theorem present_zero (i : Fin maxCpus) : Present (fun _ => 0) i ↔ (i : Nat) = 0 := eq_comm

theorem discovers_iff (m : Mem) (es : List Nat) :
    Discovers m es ↔ (∀ t ∈ madts m, Readable m t) ∧
      ∀ i : Fin maxCpus, ((i : Nat) = 0 ∨ ∃ t ∈ madts m, Marks m t i) ↔
        ∃ p ∈ es, IsLapic m p ∧ apicId m p = i := by
  constructor
  · rintro ⟨fuel, nodes, hinit, hpres⟩
    obtain ⟨hr, hmarks⟩ := init_sound hinit
    refine ⟨hr, fun i => ?_⟩
    rw [← hpres, hmarks, present_zero]
  · rintro ⟨hr, hids⟩
    obtain ⟨fuel, nodes, hinit⟩ := init_complete hr fun _ => 0
    refine ⟨fuel, nodes, hinit, fun i => ?_⟩
    rw [← hids, (init_sound hinit).2, present_zero]

/-- The record at `p` is read although it does not belong to the table at `t`. -/
def ReadPast (m : Mem) (t p : Nat) : Prop :=
  Reached (recordSize m) (tableEnd m t + 8) (tableEnd m t) p

/-- What the loop over a well-formed MADT reads: its records, then those that follow its end. -/
theorem WellFormedMadt.recordRead_iff {m : Mem} {t p : Nat} {es : List Nat}
    (h : WellFormedMadt m t es) : RecordRead m t p ↔ p ∈ es ∨ ReadPast m t p :=
  reached_tiles_iff h.tiles (Nat.le_add_right ..)

theorem WellFormedMadt.readable_iff {m : Mem} {t : Nat} {es : List Nat}
    (h : WellFormedMadt m t es) :
    Readable m t ↔ (∀ p, ReadPast m t p → 0 < recordSize m p) ∧
      ∀ p, p ∈ es ∨ ReadPast m t p → IsLapic m p → processorUid m p < maxCpus := by
  simp only [Readable, h.recordRead_iff]
  constructor
  · intro hr
    exact ⟨fun p hp => (hr p (.inr hp)).1, fun p hp => (hr p hp).2⟩
  · rintro ⟨hs, hb⟩ p hp
    refine ⟨?_, hb p hp⟩
    rcases hp with hp | hp
    · exact Nat.lt_of_lt_of_le (by decide) (h.sizes p hp)
    · exact hs p hp

/-- Whatever is in memory, `init` discovers the APIC IDs of `es` if and only if every listed table
can be read to the end and the processor UIDs read, with 0, are these IDs. Where the first RSDP
signature is that of a table list with one MADT, the records read are those of the MADT and
those behind it. -/
theorem cpu_discovery (m : Mem) (es : List Nat) :
    (Discovers m es ↔ (∀ t ∈ madts m, Readable m t) ∧
      ∀ i : Fin maxCpus, ((i : Nat) = 0 ∨ ∃ t ∈ madts m, Marks m t i) ↔
        ∃ p ∈ es, IsLapic m p ∧ apicId m p = i) ∧
    ∀ t, madts m = [t] → WellFormedMadt m t es →
      (Discovers m es ↔ (∀ p, ReadPast m t p → 0 < recordSize m p) ∧
        (∀ p, p ∈ es ∨ ReadPast m t p → IsLapic m p → processorUid m p < maxCpus) ∧
        ∀ i : Fin maxCpus,
          ((i : Nat) = 0 ∨ ∃ p, (p ∈ es ∨ ReadPast m t p) ∧ IsLapic m p ∧ processorUid m p = i) ↔
            ∃ p ∈ es, IsLapic m p ∧ apicId m p = i) := by
  refine ⟨discovers_iff m es, fun t ht hw => ?_⟩
  rw [discovers_iff, ht, ← and_assoc, ← hw.readable_iff]
  simp only [List.mem_singleton, forall_eq, exists_eq_left, Marks, hw.recordRead_iff]

/-! ## A machine with one CPU

The RSDP is the first thing in the EBDA at `0x9fc00`; the MADT at `0x2000` has one record, whose
eight bytes are `lapic`. A record of another type follows in memory. -/

def oneCpu (lapic : BitVec 64) : Mem :=
  let m : Mem := (Mem.write32 (fun _ => 0) 0x40e 0x9fc0)
  let m := ((m.write64 0x9fc00 0x2052545020445352).write64 0x9fc08 0xd1).write32 0x9fc10 0x1000
  let m := ((m.write32 0x1000 0x54445352).write32 0x1004 40).write32 0x1024 0x2000
  let m := ((m.write32 0x2000 0x43495041).write32 0x2004 52).write32 0x2024 0xfee00000
  (m.write64 0x202c lapic).write32 0x2034 0xc01

/-- Processor UID 0, APIC ID 0. -/
def matching : BitVec 64 := 0x100000800

/-- Processor UID 1, APIC ID 0. -/
def differing : BitVec 64 := 0x100010800

theorem oneCpu_wellFormed {lapic : BitVec 64} (h : lapic = matching ∨ lapic = differing) :
    WellFormedMadt (oneCpu lapic) 0x2000 [0x202c] := by
  have hmem : HasSignature (oneCpu lapic) apic 0x2000 ∧ tableEnd (oneCpu lapic) 0x2000 = 0x2034 ∧
      recordSize (oneCpu lapic) 0x202c = 8 := by
    rcases h with rfl | rfl
    · decide +kernel
    · decide +kernel
  obtain ⟨hsig, hend, hsize⟩ := hmem
  refine ⟨hsig, ?_, ?_, ?_⟩
  · rw [hend]
    refine .cons (by rw [show firstRecord 0x2000 = 0x202c from rfl, hsize]; decide) ?_
    rw [show firstRecord 0x2000 = 0x202c from rfl, hsize]
    exact .nil
  · simp [hsize]
  · simp [hsize]

/-- Only the record of the other type is read past the table. -/
theorem oneCpu_readPast {p : Nat} : ReadPast (oneCpu matching) 0x2000 p ↔ p = 0x2034 := by
  have hend : tableEnd (oneCpu matching) 0x2000 = 0x2034 := by decide +kernel
  have hsize : recordSize (oneCpu matching) 0x2034 = 12 := by decide +kernel
  rw [ReadPast, hend, Reached.cons_iff (by decide), hsize]
  constructor
  · rintro (rfl | h)
    · rfl
    · have hle := h.le
      have hlt := h.lt
      omega
  · exact .inl

theorem cpu_discovery_one : Discovers (oneCpu matching) [0x202c] := by
  have hw := oneCpu_wellFormed (.inl rfl)
  refine ((cpu_discovery _ _).2 0x2000 (by decide +kernel) hw).mpr ⟨?_, ?_, ?_⟩
  · intro p hp
    rw [oneCpu_readPast.mp hp]
    decide +kernel
  · intro p hp
    rw [oneCpu_readPast, List.mem_singleton] at hp
    rcases hp with rfl | rfl
    · decide +kernel
    · decide +kernel
  · simp only [oneCpu_readPast, List.mem_singleton, or_and_right, exists_or, exists_eq_left]
    decide +kernel

/-- An RSDP at `a`, in one of the places it may be. -/
structure ValidRsdp (m : Mem) (a : Nat) : Prop where
  place : a ∈ searched m
  signature : HasSignature m rsdPtr a
  checksum : ((List.range 20).map fun k => (m (a + k)).toNat).sum % 256 = 0

/-- The processor UID is taken for the APIC ID. -/
theorem uid_marked : ¬ ∀ (m : Mem) (rsdp t : Nat) (es : List Nat),
    ValidRsdp m rsdp → t ∈ listed m (rsdtAddr m rsdp) → WellFormedMadt m t es →
    (∀ p ∈ es, IsLapic m p → apicId m p < maxCpus) → Discovers m es := by
  intro h
  have hw := oneCpu_wellFormed (.inr rfl)
  have hrsdp : ValidRsdp (oneCpu differing) 0x9fc00 :=
    ⟨by decide +kernel, by decide +kernel, by decide +kernel⟩
  have hmadts : madts (oneCpu differing) = [0x2000] := by decide +kernel
  have hd := h _ 0x9fc00 0x2000 [0x202c] hrsdp (by decide +kernel) hw (by decide +kernel)
  have hone := ((discovers_iff _ _).mp hd).2 ⟨1, by decide⟩
  have hmarks : Marks (oneCpu differing) 0x2000 1 :=
    ⟨0x202c, hw.recordRead_iff.mpr (.inl (by simp)), by decide +kernel, by decide +kernel⟩
  obtain ⟨p, hp, -, hid⟩ := hone.mp (.inr ⟨0x2000, by rw [hmadts]; simp, hmarks⟩)
  rw [List.mem_singleton.mp hp] at hid
  revert hid
  decide +kernel

/-! ## The length of the walk -/

/-- The records of a tiled table are not all the loop looks at. -/
theorem madtRecords_length {m : Mem} {t fuel : Nat} {l es : List Nat}
    (h : madtRecords m (tableEnd m t) fuel (t + sdtSize) = some l)
    (ht : Tiles (recordSize m) (tableEnd m t) (firstRecord t) es) : es.length < l.length := by
  obtain ⟨rest, rfl, hrest⟩ := ht.split (madtRecords_sound h) (Nat.le_add_right ..)
  cases hrest with
  | nil hp => omega
  | cons => simp

/-- The loop over the table at `t` ends after one round for each record that tiles the table if
and only if no record it comes to has length 0 and nothing tiles the table. -/
theorem madtLoop_rounds_iff (m : Mem) (t : Nat) :
    (∃ fuel l, madtRecords m (tableEnd m t) fuel (t + sdtSize) = some l ∧
      ∀ es, Tiles (recordSize m) (tableEnd m t) (firstRecord t) es → l.length = es.length) ↔
    (∀ p, RecordRead m t p → 0 < recordSize m p) ∧
      ¬ ∃ es, Tiles (recordSize m) (tableEnd m t) (firstRecord t) es := by
  constructor
  · rintro ⟨fuel, l, hl, hes⟩
    refine ⟨exists_records_iff.mp ⟨l, madtRecords_sound hl⟩, ?_⟩
    rintro ⟨es, ht⟩
    have hlt := madtRecords_length hl ht
    have heq := hes es ht
    omega
  · rintro ⟨hs, hno⟩
    obtain ⟨l, hl⟩ := exists_records_iff.mpr hs
    exact ⟨l.length + 1, l, madtRecords_complete hl (Nat.lt_succ_self _),
      fun es ht => absurd ⟨es, ht⟩ hno⟩

/-- A record of length 0 is looked at for ever. -/
theorem madtLoop_spins : ¬ ∀ (m : Mem) (rsdp t : Nat), ValidRsdp m rsdp →
    t ∈ listed m (rsdtAddr m rsdp) → HasSignature m apic t →
    ∃ fuel l, madtRecords m (tableEnd m t) fuel (t + sdtSize) = some l ∧
      ∀ es, Tiles (recordSize m) (tableEnd m t) (firstRecord t) es → l.length = es.length := by
  intro h
  have hrsdp : ValidRsdp (oneCpu 0) 0x9fc00 :=
    ⟨by decide +kernel, by decide +kernel, by decide +kernel⟩
  obtain ⟨fuel, l, hl, -⟩ := h _ 0x9fc00 0x2000 hrsdp (by decide +kernel) (by decide +kernel)
  have hfirst : RecordRead (oneCpu 0) 0x2000 (firstRecord 0x2000) := .first (by decide +kernel)
  have hpos := exists_records_iff.mp ⟨l, madtRecords_sound hl⟩ _ hfirst
  revert hpos
  decide +kernel

/-! ## What the walk touches -/

inductive Access where
  | read (a : Nat)
  | store (index : Nat)
  deriving DecidableEq

/-- What one round does to memory for the record at `p`: the reads of the payload and the store
into `cpu_nodes`. -/
def recordAccesses (m : Mem) (p : Nat) : List Access :=
  [.read p, .read (p + 1)] ++
    if m p = madtLapic then [.read (p + 2), .store (m (p + 2)).toNat] else []

/-- The accesses of the first `fuel` rounds of the `while` loop. -/
def madtAccesses (m : Mem) (endApic : Nat) : Nat → Nat → List Access
  | 0, _ => []
  | fuel + 1, madtPtr =>
    if madtPtr < endApic then
      recordAccesses m (madtPtr + 8) ++
        madtAccesses m endApic fuel (madtPtr + recordSize m (madtPtr + 8))
    else []

/-- Reads inside the table at `t`, stores inside `cpu_nodes`. -/
def Access.Inside (m : Mem) (t : Nat) : Access → Prop
  | .read a => t ≤ a ∧ a < tableEnd m t
  | .store index => index < maxCpus

/-- Behind the last record the loop reads the byte at the end of the table. -/
theorem madtAccesses_end {m : Mem} {e : Nat} : ∀ {l : List Nat} {c : Nat},
    Tiles (recordSize m) e (c + 8) l → .read e ∈ madtAccesses m e (l.length + 1) c := by
  intro l
  induction l with
  | nil =>
    intro c h
    generalize hp : c + 8 = p at h
    cases h
    rw [List.length_nil, madtAccesses, if_pos (by omega), hp]
    simp [recordAccesses]
  | cons p l ih =>
    intro c h
    have hle := h.le
    rw [List.length_cons, madtAccesses, if_pos (by omega)]
    cases h with
    | cons _ h =>
      rw [Nat.add_right_comm] at h
      exact List.mem_append_right _ (ih h)

/-- No well-formed MADT is parsed within bounds. -/
theorem madt_out_of_bounds {m : Mem} {t : Nat} {es : List Nat} (h : WellFormedMadt m t es) :
    ¬ ∀ fuel, ∀ a ∈ madtAccesses m (tableEnd m t) fuel (t + sdtSize), a.Inside m t := by
  intro hin
  have hend := hin _ _ (madtAccesses_end h.tiles)
  exact absurd hend.2 (Nat.lt_irrefl _)

theorem madt_out_of_bounds_one :
    ¬ ∀ fuel, ∀ a ∈ madtAccesses (oneCpu matching) (tableEnd (oneCpu matching) 0x2000) fuel
      (0x2000 + sdtSize), a.Inside (oneCpu matching) 0x2000 :=
  madt_out_of_bounds (oneCpu_wellFormed (.inl rfl))

/-- Where the table has one record, the second round reads the byte behind the table. -/
theorem madt_read_past : ¬ ∀ (m : Mem) (t : Nat) (es : List Nat), WellFormedMadt m t es →
    ∀ fuel, ∀ a ∈ madtAccesses m (tableEnd m t) fuel (t + sdtSize), a.Inside m t := by
  intro h
  have hin := h _ _ _ (oneCpu_wellFormed (.inl rfl)) 2 (.read 0x2034) (by decide +kernel)
  have hend : tableEnd (oneCpu matching) 0x2000 = 0x2034 := by decide +kernel
  rw [Access.Inside, hend] at hin
  omega

end Acpi
end DeliceOS
