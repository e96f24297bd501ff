import DeliceOS.Acpi.Madt

/-!
# Acpi.Enumerate

What `iterate_check` looks at: the entries of an RSDT, and the ranges searched for the RSDP. Loads
are at physical addresses.

* `rsdtLoop_scan`: the loop over the entries as what it visits, and the stores of the records.
* `rsdt_enumeration`: which entries it visits, for every length field.
* `searchOutcome_iff`: when the result of the search agrees with what was found. The result of
  the search of the remaining ranges is dropped.
-/

namespace DeliceOS
namespace Acpi

open Base

/-! ## The entries of the RSDT -/

/-- An entry that the `for` loop examines, and whether its table goes to the MADT loop. -/
structure Visit where
  ii : Nat
  acpiPtr : Nat
  madt : Bool
  deriving DecidableEq

/-- The `for` loop from `ii` on, whatever it stores: the entries examined and, unless a MADT loop
does not end, the records that these loops look at. -/
def rsdtScan (fuel : Nat) (m : Mem) (rsdtHdr : Nat) (entries : Int) (ii : Nat) :
    List Visit × Option (List Nat) :=
  if ii < entries then
    let acpiPtr := entry m rsdtHdr ii
    if memcmp (ptr m acpiPtr) (literal apic) 4 = 0 then
      match madtRecords m (tableEnd m acpiPtr) fuel (acpiPtr + sdtSize) with
      | some l =>
        let r := rsdtScan fuel m rsdtHdr entries (ii + 1)
        (⟨ii, acpiPtr, true⟩ :: r.1, r.2.map (l ++ ·))
      | none => ([⟨ii, acpiPtr, true⟩], none)
    else
      let r := rsdtScan fuel m rsdtHdr entries (ii + 1)
      (⟨ii, acpiPtr, false⟩ :: r.1, r.2)
  else ([], some [])
termination_by (entries - ii).toNat

/-- The loop of `iterate_check` over the RSDT at `rsdtHdr`. -/
def scan (fuel : Nat) (m : Mem) (rsdtHdr : Nat) : List Visit × Option (List Nat) :=
  rsdtScan fuel m rsdtHdr (entries (sdtLength m rsdtHdr)).toInt 0

/-- What there is to examine at entry `ii`. -/
def visit (m : Mem) (rsdtHdr ii : Nat) : Visit :=
  ⟨ii, entry m rsdtHdr ii, decide (HasSignature m apic (entry m rsdtHdr ii))⟩

/-- The MADT loop over the table at `t` ends, whatever it stores. -/
def Ends (m : Mem) (t : Nat) : Prop :=
  ∃ fuel l, madtRecords m (tableEnd m t) fuel (t + sdtSize) = some l

variable {m : Mem} {rsdt fuel ii k : Nat} {n : Int}

theorem Ends.bound {t : Nat} (h : Ends m t) :
    ∃ bound, ∀ fuel, bound < fuel → madtRecords m (tableEnd m t) fuel (t + sdtSize) ≠ none := by
  obtain ⟨_, l, hl⟩ := h
  refine ⟨l.length, fun fuel hf => ?_⟩
  rw [madtRecords_complete (madtRecords_sound hl) hf]
  exact Option.some_ne_none l

theorem rsdtScan_end (h : n.toNat ≤ ii) : rsdtScan fuel m rsdt n ii = ([], some []) := by
  rw [rsdtScan, if_neg (by omega)]

/-- Entry `ii` is examined; the loop is left there only in a MADT loop that does not end. -/
theorem rsdtScan_visit (fuel : Nat) (m : Mem) (rsdt : Nat) (h : ii < n.toNat) :
    ∃ rest, (rsdtScan fuel m rsdt n ii).1 = visit m rsdt ii :: rest ∧
      (rest = (rsdtScan fuel m rsdt n (ii + 1)).1 ∨
        rest = [] ∧ HasSignature m apic (entry m rsdt ii) ∧
          madtRecords m (tableEnd m (entry m rsdt ii)) fuel (entry m rsdt ii + sdtSize) = none) := by
  rw [rsdtScan, if_pos (by omega), visit]
  by_cases hsig : HasSignature m apic (entry m rsdt ii)
  · simp only [if_pos ((memcmp_apic m _).mpr hsig), hsig, decide_true]
    split
    · exact ⟨_, rfl, .inl rfl⟩
    · rename_i hnone
      exact ⟨_, rfl, .inr ⟨rfl, trivial, hnone⟩⟩
  · simp only [if_neg (mt (memcmp_apic m _).mp hsig), hsig, decide_false]
    exact ⟨_, rfl, .inl rfl⟩

/-- The entries are examined in order, each once, and none after the last. -/
theorem rsdtScan_prefix (fuel : Nat) (m : Mem) (rsdt : Nat) (n : Int) (ii : Nat) :
    (rsdtScan fuel m rsdt n ii).1 <+: (List.range' ii (n.toNat - ii)).map (visit m rsdt) := by
  generalize hk : n.toNat - ii = k
  induction k generalizing ii with
  | zero =>
    rw [rsdtScan_end (by omega)]
    exact List.nil_prefix
  | succ k ih =>
    obtain ⟨rest, heq, hrest⟩ := rsdtScan_visit fuel m rsdt (show ii < n.toNat by omega)
    rw [heq, List.range'_succ, List.map_cons, List.prefix_cons_inj]
    rcases hrest with hnext | ⟨hnil, _⟩
    · rw [hnext]
      exact ih (ii + 1) (by omega)
    · rw [hnil]
      exact List.nil_prefix

/-- The loop comes as far as the MADT loops on the way end. -/
theorem rsdtScan_complete (k : Nat) : ∀ ii, ii + k ≤ n.toNat →
    (∀ jj, ii ≤ jj → jj + 1 < ii + k → HasSignature m apic (entry m rsdt jj) →
      Ends m (entry m rsdt jj)) →
    ∃ bound, ∀ fuel, bound < fuel →
      (List.range' ii k).map (visit m rsdt) <+: (rsdtScan fuel m rsdt n ii).1 := by
  induction k with
  | zero =>
    intro ii _ _
    exact ⟨0, fun _ _ => List.nil_prefix⟩
  | succ k ih =>
    intro ii hle hends
    obtain ⟨b, hb⟩ := ih (ii + 1) (by omega) fun jj hjj hlt => hends jj (by omega) (by omega)
    -- the last of the visits is made whether or not its MADT loop ends
    have hgoes : ∃ b', ∀ fuel, b' < fuel → k = 0 ∨ ¬ (HasSignature m apic (entry m rsdt ii) ∧
        madtRecords m (tableEnd m (entry m rsdt ii)) fuel (entry m rsdt ii + sdtSize) = none) := by
      by_cases hsig : k ≠ 0 ∧ HasSignature m apic (entry m rsdt ii)
      · obtain ⟨b', hb'⟩ := (hends ii (Nat.le_refl _) (by omega) hsig.2).bound
        exact ⟨b', fun fuel hf => .inr fun h => hb' fuel hf h.2⟩
      · refine ⟨0, fun _ _ => ?_⟩
        by_cases hk : k = 0
        · exact .inl hk
        · exact .inr fun h => hsig ⟨hk, h.1⟩
    obtain ⟨b', hb'⟩ := hgoes
    refine ⟨max b b', fun fuel hf => ?_⟩
    obtain ⟨rest, heq, hrest⟩ := rsdtScan_visit fuel m rsdt (show ii < n.toNat by omega)
    rw [heq, List.range'_succ, List.map_cons, List.prefix_cons_inj]
    rcases hrest with hnext | ⟨_, hnone⟩
    · rw [hnext]
      exact hb fuel (by omega)
    · rcases hb' fuel (by omega) with hk | hgo
      · rw [hk]
        exact List.nil_prefix
      · exact absurd hnone hgo

/-- The entries examined are those that lie in the table, for every value of its length. -/
theorem rsdt_enumeration (m : Mem) (rsdt : Nat) :
    let length := (sdtLength m rsdt).toNat
    let n := (length - sdtSize) / 4
    (∀ ii < n, rsdt + sdtSize + 4 * ii + 4 ≤ rsdt + length) ∧
    (∀ fuel, (scan fuel m rsdt).1 <+: (List.range n).map (visit m rsdt)) ∧
    ∀ k ≤ n, (∀ jj, jj + 1 < k → HasSignature m apic (entry m rsdt jj) →
        Ends m (entry m rsdt jj)) →
      ∃ bound, ∀ fuel, bound < fuel →
        (List.range k).map (visit m rsdt) <+: (scan fuel m rsdt).1 := by
  intro length n
  have hn : (entries (sdtLength m rsdt)).toInt.toNat = n := entries_toNat _
  refine ⟨?_, ?_, ?_⟩
  · intro ii hii
    simp only [n, sdtSize] at hii ⊢
    omega
  · intro fuel
    have h := rsdtScan_prefix fuel m rsdt (entries (sdtLength m rsdt)).toInt 0
    rw [hn, Nat.sub_zero, ← List.range_eq_range'] at h
    exact h
  · intro k hk hends
    rw [List.range_eq_range']
    exact rsdtScan_complete k 0 (by omega) fun jj _ hlt => hends jj (by omega)

/-- The one entry of `oneCpu`'s RSDT. -/
theorem rsdt_enumeration_one :
    (sdtLength (oneCpu matching) 0x1000).toNat = 40 ∧
      ∃ bound, ∀ fuel, bound < fuel → [⟨0, 0x2000, true⟩] <+: (scan fuel (oneCpu matching) 0x1000).1 := by
  have hlength : (sdtLength (oneCpu matching) 0x1000).toNat = 40 := by decide
  have hvisit : (List.range 1).map (visit (oneCpu matching) 0x1000) = [⟨0, 0x2000, true⟩] := by decide
  refine ⟨hlength, ?_⟩
  have h := (rsdt_enumeration (oneCpu matching) 0x1000).2.2 1 (by rw [hlength, sdtSize])
    (fun jj hjj => absurd hjj (by omega))
  rw [hvisit] at h
  exact h

theorem storeAll_append {l l' : List Nat} {nodes nodes' : CpuNodes} :
    storeAll m (l ++ l') nodes = .ok nodes' ↔
      ∃ mid, storeAll m l nodes = .ok mid ∧ storeAll m l' mid = .ok nodes' := by
  induction l generalizing nodes with
  | nil => simp [storeAll]
  | cons p l ih =>
    simp only [List.cons_append, storeAll]
    cases record m p nodes with
    | error e => simp
    | ok mid => exact ih

/-- One entry of the loop over the RSDT. -/
theorem rsdtLoop_cons_iff {iis : List Nat} {nodes nodes' : CpuNodes} :
    rsdtLoop fuel m rsdt (ii :: iis) nodes = some (.ok nodes') ↔
      if HasSignature m apic (entry m rsdt ii) then
        ∃ mid, madtLoop m (tableEnd m (entry m rsdt ii)) fuel (entry m rsdt ii + sdtSize) nodes =
          some (.ok mid) ∧ rsdtLoop fuel m rsdt iis mid = some (.ok nodes')
      else rsdtLoop fuel m rsdt iis nodes = some (.ok nodes') := by
  simp only [rsdtLoop]
  by_cases hsig : HasSignature m apic (entry m rsdt ii)
  · rw [if_pos ((memcmp_apic m _).mpr hsig), if_pos hsig, tableEnd]
    split
    · rename_i mid hmid
      simp [hmid]
    · rename_i hne
      constructor
      · intro h
        exact absurd h (hne nodes')
      · rintro ⟨mid, hmid, _⟩
        exact absurd hmid (hne mid)
  · rw [if_neg (mt (memcmp_apic m _).mp hsig), if_neg hsig]

/-- The loop ends with the stores of the records looked at, in order, if the visits come to an
end. -/
theorem rsdtLoop_scan {nodes' : CpuNodes} : ∀ {ii : Nat} {nodes : CpuNodes},
    rsdtLoop fuel m rsdt (List.range' ii (n.toNat - ii)) nodes = some (.ok nodes') ↔
      ∃ l, (rsdtScan fuel m rsdt n ii).2 = some l ∧ storeAll m l nodes = .ok nodes' := by
  intro ii
  generalize hk : n.toNat - ii = k
  induction k generalizing ii with
  | zero =>
    intro nodes
    rw [rsdtScan_end (by omega)]
    simp [rsdtLoop, storeAll]
  | succ k ih =>
    intro nodes
    have hrest : ∀ {mid}, rsdtLoop fuel m rsdt (List.range' (ii + 1) k) mid = some (.ok nodes') ↔
        ∃ l, (rsdtScan fuel m rsdt n (ii + 1)).2 = some l ∧ storeAll m l mid = .ok nodes' :=
      ih (by omega)
    have hlt : (ii : Int) < n := by omega
    rw [rsdtScan, if_pos hlt, List.range'_succ, rsdtLoop_cons_iff]
    by_cases hsig : HasSignature m apic (entry m rsdt ii)
    · simp only [if_pos hsig, if_pos ((memcmp_apic m _).mpr hsig), madtLoop_ok_iff, hrest]
      cases hrec : madtRecords m (tableEnd m (entry m rsdt ii)) fuel (entry m rsdt ii + sdtSize) with
      | none => simp
      | some l =>
        simp only [Option.some.injEq, exists_eq_left', Option.map_eq_some_iff]
        constructor
        · rintro ⟨mid, hmid, l', hl', hs⟩
          exact ⟨l ++ l', ⟨l', hl', rfl⟩, storeAll_append.mpr ⟨mid, hmid, hs⟩⟩
        · rintro ⟨_, ⟨l', hl', rfl⟩, hs⟩
          obtain ⟨mid, hmid, hs'⟩ := storeAll_append.mp hs
          exact ⟨mid, hmid, l', hl', hs'⟩
    · simp only [if_neg hsig, if_neg (mt (memcmp_apic m _).mp hsig)]
      exact hrest

theorem rsdtLoop_entries {nodes nodes' : CpuNodes} :
    rsdtLoop fuel m rsdt (List.range (entries (sdtLength m rsdt)).toInt.toNat) nodes =
        some (.ok nodes') ↔
      ∃ l, (scan fuel m rsdt).2 = some l ∧ storeAll m l nodes = .ok nodes' := by
  rw [List.range_eq_range']
  exact rsdtLoop_scan

/-! ## The ranges -/

/-- `iterate_check` with the RSDPs whose tables it walks. -/
def iterateCheckLog (fuel : Nat) (m : Mem) : List (BitVec 32 × BitVec 32) → CpuNodes →
    List Nat × Option (Except Fault (CpuNodes × Bool))
  | [], nodes => ([], some (.ok (nodes, false)))
  | (low, high) :: rest, nodes =>
    match checkRsdt m low high with
    | some rsdp =>
      let rsdtHdr := rsdtAddr m rsdp
      ([rsdp], (rsdtLoop fuel m rsdtHdr
        (List.range (entries (sdtLength m rsdtHdr)).toInt.toNat) nodes).map (Except.map (·, true)))
    | none =>
      let r := iterateCheckLog fuel m rest nodes
      (r.1, r.2.map (Except.map fun r => (r.1, false)))

theorem iterateCheckLog_snd (fuel : Nat) (m : Mem) (ranges : List (BitVec 32 × BitVec 32))
    (nodes : CpuNodes) :
    (iterateCheckLog fuel m ranges nodes).2 = iterateCheck fuel m ranges nodes := by
  induction ranges with
  | nil => rfl
  | cons range ranges ih =>
    simp only [iterateCheckLog, iterateCheck]
    cases checkRsdt m range.1 range.2 with
    | some rsdp => rfl
    | none => simp only [ih]

/-- The range has the signature at one of the addresses stepped through. -/
def Contains (m : Mem) (range : BitVec 32 × BitVec 32) : Prop :=
  ∃ k, range.1.toNat + 16 * k < range.2.toNat ∧ HasSignature m rsdPtr (range.1.toNat + 16 * k)

/-- The lowest RSDP of the first range that contains one. -/
inductive IsFirstRsdp (m : Mem) : List (BitVec 32 × BitVec 32) → Nat → Prop where
  | here {range rest rsdp} (h : IsLowestRsdp m range.1.toNat range.2.toNat rsdp) :
      IsFirstRsdp m (range :: rest) rsdp
  | there {range rest rsdp} (h : ¬ Contains m range) (hrest : IsFirstRsdp m rest rsdp) :
      IsFirstRsdp m (range :: rest) rsdp

/-- What the caller of `iterate_check` expects: only the tables of the first RSDP are walked, and
the search returns whether there is one. -/
structure SearchOutcome (m : Mem) (ranges : List (BitVec 32 × BitVec 32)) (nodes : CpuNodes) :
    Prop where
  walks : ∀ rsdp, IsFirstRsdp m ranges rsdp → ∀ fuel,
    (iterateCheckLog fuel m ranges nodes).1 = [rsdp] ∧
      (iterateCheck fuel m ranges nodes).map (Except.map Prod.fst) =
        rsdtLoop fuel m (rsdtAddr m rsdp)
          (List.range (entries (sdtLength m (rsdtAddr m rsdp))).toInt.toNat) nodes
  walksNone : (∀ range ∈ ranges, ¬ Contains m range) → ∀ fuel,
    (iterateCheckLog fuel m ranges nodes).1 = [] ∧
      (iterateCheck fuel m ranges nodes).map (Except.map Prod.fst) = some (.ok nodes)
  returns : ∃ fuel nodes' found, iterateCheck fuel m ranges nodes = some (.ok (nodes', found)) ∧
    (found = true ↔ ∃ range ∈ ranges, Contains m range)

variable {range first : BitVec 32 × BitVec 32} {ranges rest : List (BitVec 32 × BitVec 32)}
  {rsdp : Nat} {nodes : CpuNodes}

theorem checkRsdt_none_iff : checkRsdt m range.1 range.2 = none ↔ ¬ Contains m range := by
  rw [checkRsdt_eq_none_iff, Contains]
  simp only [not_exists, not_and]

/-- What the search finds in the ranges one after the other. -/
theorem find?_ranges (m : Mem) (ranges : List (BitVec 32 × BitVec 32)) :
    (ranges.flatMap fun r => steps r.1.toNat r.2.toNat).find? (HasSignature m rsdPtr ·) =
      ranges.findSome? fun r => checkRsdt m r.1 r.2 := by
  rw [List.find?_flatMap]
  simp only [checkRsdt, checkRsdtLoop_eq_find?]

theorem IsFirstRsdp.findSome? (h : IsFirstRsdp m ranges rsdp) :
    (ranges.findSome? fun r => checkRsdt m r.1 r.2) = some rsdp := by
  induction h with
  | here h => rw [List.findSome?_cons, checkRsdt_eq_some_iff.mpr h]
  | there h _ ih => rw [List.findSome?_cons, checkRsdt_none_iff.mpr h]; exact ih

theorem iterateCheckLog_fst (fuel : Nat) (m : Mem) (ranges : List (BitVec 32 × BitVec 32))
    (nodes : CpuNodes) : (iterateCheckLog fuel m ranges nodes).1 =
      (ranges.findSome? fun r => checkRsdt m r.1 r.2).toList := by
  induction ranges with
  | nil => rfl
  | cons range ranges ih =>
    simp only [iterateCheckLog, List.findSome?_cons]
    cases checkRsdt m range.1 range.2 with
    | some rsdp => rfl
    | none => exact ih

theorem iterateCheck_walks (h : IsFirstRsdp m ranges rsdp) (fuel : Nat) (nodes : CpuNodes) :
    (iterateCheckLog fuel m ranges nodes).1 = [rsdp] ∧
      (iterateCheck fuel m ranges nodes).map (Except.map Prod.fst) =
        rsdtLoop fuel m (rsdtAddr m rsdp)
          (List.range (entries (sdtLength m (rsdtAddr m rsdp))).toInt.toNat) nodes := by
  rw [iterateCheckLog_fst, iterateCheck_eq, find?_ranges, h.findSome?]
  exact ⟨rfl, rfl⟩

theorem iterateCheck_walksNone (h : ∀ range ∈ ranges, ¬ Contains m range) (fuel : Nat)
    (nodes : CpuNodes) : (iterateCheckLog fuel m ranges nodes).1 = [] ∧
      (iterateCheck fuel m ranges nodes).map (Except.map Prod.fst) = some (.ok nodes) := by
  have hnone : (ranges.findSome? fun r => checkRsdt m r.1 r.2) = none :=
    List.findSome?_eq_none_iff.mpr fun range hr => checkRsdt_none_iff.mpr (h range hr)
  rw [iterateCheckLog_fst, iterateCheck_eq, find?_ranges, hnone]
  exact ⟨rfl, rfl⟩

theorem map_ok_iff {α β : Type} {f : α → β} {x : Option (Except Fault α)} {b : β} :
    x.map (Except.map f) = some (.ok b) ↔ ∃ a, x = some (.ok a) ∧ f a = b := by
  rcases x with _ | _ | a
  · simp
  · simp [Except.map]
  · simp [Except.map]

/-- Only a search that succeeds in the first range returns true. -/
theorem iterateCheck_found {nodes' : CpuNodes} {found : Bool}
    (h : iterateCheck fuel m (first :: rest) nodes = some (.ok (nodes', found))) :
    found = true ↔ Contains m first := by
  simp only [iterateCheck] at h
  cases hc : checkRsdt m first.1 first.2 with
  | some rsdp =>
    rw [hc] at h
    obtain ⟨_, _, heq⟩ := map_ok_iff.mp h
    have hcontains : Contains m first := by
      by_contra hnot
      rw [checkRsdt_none_iff.mpr hnot] at hc
      cases hc
    exact iff_of_true (congrArg Prod.snd heq).symm hcontains
  | none =>
    rw [hc] at h
    obtain ⟨_, _, heq⟩ := map_ok_iff.mp h
    have hfalse : false = found := congrArg Prod.snd heq
    exact iff_of_false (by rw [← hfalse]; exact Bool.false_ne_true) (checkRsdt_none_iff.mp hc)

/-- The MADT loops over the tables listed from `rsdp` on end, with every store in `cpu_nodes`. -/
def Walkable (m : Mem) (rsdp : Nat) : Prop :=
  ∀ t ∈ (listed m (rsdtAddr m rsdp)).filter (HasSignature m apic ·), Readable m t

theorem iterateCheck_returns_iff (h : IsFirstRsdp m ranges rsdp) (nodes : CpuNodes) :
    (∃ fuel nodes' found, iterateCheck fuel m ranges nodes = some (.ok (nodes', found))) ↔
      Walkable m rsdp := by
  have heffect := fun fuel => (iterateCheck_walks h fuel nodes).2
  simp only [entries_toNat] at heffect
  constructor
  · intro ⟨fuel, nodes', found, hrun⟩
    have hloop := heffect fuel
    rw [hrun] at hloop
    exact (rsdtLoop_sound hloop.symm).1
  · intro hwalk
    obtain ⟨bound, hb⟩ := rsdtLoop_complete hwalk
    obtain ⟨nodes', hloop⟩ := hb (bound + 1) (by omega) nodes
    obtain ⟨⟨_, found⟩, hrun, _⟩ := map_ok_iff.mp ((heffect (bound + 1)).trans hloop)
    exact ⟨bound + 1, _, found, hrun⟩

/-- The search has the outcome expected of it if and only if no range contains an RSDP, or the
first one does and the walk of its tables comes to an end. -/
theorem searchOutcome_iff (m : Mem) (first : BitVec 32 × BitVec 32)
    (rest : List (BitVec 32 × BitVec 32)) (nodes : CpuNodes) :
    SearchOutcome m (first :: rest) nodes ↔
      (∀ range ∈ first :: rest, ¬ Contains m range) ∨
        ∃ rsdp, IsLowestRsdp m first.1.toNat first.2.toNat rsdp ∧ Walkable m rsdp := by
  constructor
  · intro ⟨_, _, fuel, nodes', found, hrun, hfound⟩
    rw [iterateCheck_found hrun] at hfound
    by_cases hfirst : Contains m first
    · obtain ⟨rsdp, hc⟩ := Option.ne_none_iff_exists'.mp (mt checkRsdt_none_iff.mp (not_not.mpr hfirst))
      have hlowest := checkRsdt_eq_some_iff.mp hc
      exact .inr ⟨rsdp, hlowest,
        (iterateCheck_returns_iff (.here hlowest) nodes).mp ⟨fuel, nodes', found, hrun⟩⟩
    · exact .inl fun range hr hcontains => hfirst (hfound.mpr ⟨range, hr, hcontains⟩)
  · intro h
    refine ⟨fun rsdp hfirst fuel => iterateCheck_walks hfirst fuel nodes,
      fun hnone fuel => iterateCheck_walksNone hnone fuel nodes, ?_⟩
    rcases h with hnone | ⟨rsdp, hlowest, hwalk⟩
    · obtain ⟨⟨nodes', found⟩, hrun, _⟩ := map_ok_iff.mp (iterateCheck_walksNone hnone 0 nodes).2
      refine ⟨0, nodes', found, hrun, ?_⟩
      rw [iterateCheck_found hrun]
      exact iff_of_false (hnone first (by simp)) fun ⟨range, hr, hc⟩ => hnone range hr hc
    · obtain ⟨fuel, nodes', found, hrun⟩ :=
        (iterateCheck_returns_iff (.here hlowest) nodes).mpr hwalk
      have hcontains : Contains m first := by
        obtain ⟨⟨⟨k, rfl, hlt⟩, hsig⟩, _⟩ := hlowest
        exact ⟨k, hlt, hsig⟩
      refine ⟨fuel, nodes', found, hrun, ?_⟩
      rw [iterateCheck_found hrun]
      exact iff_of_true hcontains ⟨first, by simp, hcontains⟩

/-- The RSDP in the BIOS area, where `init` searches after the EBDA, and an RSDT without
entries. -/
theorem searchOutcome_second :
    let m := Mem.write64 (fun _ => 0) 0xe0000 0x2052545020445352
    let bios : BitVec 32 × BitVec 32 := (0xe0000, 0x100000)
    Contains m bios ∧ ∀ nodes, ¬ SearchOutcome m [(0, 1024), bios] nodes := by
  intro m bios
  have hbios : Contains m bios := ⟨0, by decide, by decide⟩
  refine ⟨hbios, fun nodes h => ?_⟩
  obtain ⟨fuel, nodes', found, hrun, hfound⟩ := h.returns
  rw [iterateCheck_found hrun] at hfound
  obtain ⟨k, hlt, hsig⟩ := hfound.mpr ⟨bios, by simp, hbios⟩
  have hzero : m (0 + 16 * k + 0) = 0 := Mem.writeLE_out (.inl (by simp at hlt; omega))
  exact absurd (hzero.symm.trans (hsig 0 (by decide))) (by decide)

end Acpi
end DeliceOS
