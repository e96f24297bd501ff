import DeliceOS.Acpi.Mapped
import DeliceOS.Boot.Console
import DeliceOS.Boot.LongMode

/-!
# Boot.Chain

The stages of the boot one after another: the answers of the BIOS, the way to long mode, the page
tables of the kernel, and the log on the serial line. The kernel reads memory through paging.

* `getPhysical_frame`: the map leaves the boot sector alone.
* `Kernel.tables`, `Kernel.apic`: the page tables after the call of `map_addr`.
* `boot_map`: the kernel sees the map and the APIC ID of the first stage.
* `boot_log_on_wire`: from the descriptors of the BIOS to the bytes on the line.
-/

namespace DeliceOS
namespace LongMode

open Base Boot Format Paging Serial
open Acpi (KernelTables)
open Console (bytes putcharSerial record wire)
open HandOff (InTables)

/-! ## The map in real mode -/

theorem store_frame {d : Descriptor} {a x : Nat} {m : Mem} (h : x < a ∨ a + 24 ≤ x) :
    d.store a m x = m x := by
  simp only [Descriptor.store, Mem.write32, Mem.write64]
  rw [Mem.writeLE_out (by omega), Mem.writeLE_out (by omega), Mem.writeLE_out (by omega),
    Mem.writeLE_out (by omega)]

/-- However long the list, the records stay in the segment of ES. -/
theorem getPhysicalLoop_frame {bios : List Answer} {ebp edi n : BitVec 32} {m m' : Mem} {x : Nat}
    (h : getPhysicalLoop bios ebp edi m = some (n, m')) (hx : x < 0x10000 ∨ 0x20018 ≤ x) :
    m' x = m x := by
  induction bios generalizing ebp edi m with
  | nil => cases h
  | cons r rest ih =>
    have hoff : edi.toNat % 2 ^ 16 < 2 ^ 16 := Nat.mod_lt _ (by decide)
    have hstore : r.store (esLinear (edi.toNat % 2 ^ 16)) m x = m x := by
      rw [Answer.store]
      cases r.record with
      | none => rfl
      | some d => exact store_frame (by simp only [esLinear]; omega)
    rw [getPhysicalLoop] at h
    split at h
    · cases h
      exact hstore
    · exact (ih h).trans hstore

theorem getPhysical_frame {bios : List Answer} {m m' : Mem} {x : Nat}
    (h : getPhysical bios m = some m') (hx : x < 0x10000 ∨ 0x20018 ≤ x) : m' x = m x := by
  rw [getPhysical] at h
  split at h
  case h_1 ebp m₁ hloop =>
    cases h
    rw [Mem.write32, Mem.writeLE_out (by simp only [esLinear]; omega)]
    exact getPhysicalLoop_frame hloop hx
  case h_2 => cases h

theorem Start.getPhysical {l : Layout} {c : Cpu} {bios : List Answer} {m m' : Mem}
    (h : Start l c m) (hbios : getPhysical bios m = some m') : Start l c m' where
  image := h.image.congr fun x _ hx => getPhysical_frame hbios (.inl (by omega))
  real := h.real
  unpaged := h.unpaged
  upwards := h.upwards
  cache := h.cache
  esp := h.esp

/-! ## The kernel -/

/-- Memory as the processor sees it, zero where there is no page. -/
def view (c : Cpu) (m : Mem) : Mem := fun va => (c.translate m va).elim 0 m

/-- The loop of `start_kernel` over the map in memory. -/
def kernelLog {σ : Type} (env : Env) (putcharSerial : Char → σ → σ) (m : Mem) (s : σ) : Option σ :=
  printLog env putcharSerial ((visited m).map record) s

/-- The memory of a kernel entered in state `s`, from its call of `map_addr` on. Where it stores
otherwise is left open, but for the page tables, whose accessed and dirty bits the processor sets,
the map and the APIC ID. -/
structure Kernel (s : Machine) (m : Mem) : Prop where
  mapped : ∀ x, InTables x → Walk.SameByte x (m x) (mapAddr apicCall s.mem x)
  map : ∀ x, 0x14000 ≤ x → x < 0x16000 → m x = s.mem x
  id : ∀ x, 0xfee00020 ≤ x → x < 0xfee00024 → m x = s.mem x

section

variable {l : Layout} {c : Cpu} {m m₀ m₁ : Mem} {s : Machine} {bios : List Answer}

theorem Start.mem_eq (h : Start l c m₁)
    (hrun : run l.addr (protectedMode l ++ setupLm l) 0 ⟨c, m₁⟩ = some s) :
    s.mem = bootedMem l m₁ := by
  obtain ⟨cpu, mem⟩ := s
  have heq := Option.some.inj (h.run_eq.symm.trans hrun)
  exact (Machine.mk.inj heq).2.symm

/-- The page tables are those of `early_page` and `map_addr`. -/
theorem Kernel.tables (h : Start l c m₁)
    (hrun : run l.addr (protectedMode l ++ setupLm l) 0 ⟨c, m₁⟩ = some s) (hk : Kernel s m) :
    KernelTables m := by
  refine ⟨Store.apply ⟨0x7c00 - 4, 4, l.ret⟩ (protectedMem l m₁), fun x hx => ?_⟩
  have hinside := l.inside l.lmgdtBase (by simp)
  have hin : InTables x := by
    simp only [Acpi.InFrames, APIC_PDPTE, APIC_PDE, FIRST_PML4_BASE] at hx
    simp only [InTables]
    omega
  have hearly : s.mem x =
      earlyPage (Store.apply ⟨0x7c00 - 4, 4, l.ret⟩ (protectedMem l m₁)) x := by
    simp only [InTables] at hin
    rw [h.mem_eq hrun, bootedMem, markAccessed_out (by omega), callStores, Store.run_cons]
    exact run_earlyPageCode _ _ _ (by omega)
  have hmapped : mapAddr apicCall s.mem x = mapAddr apicCall
      (earlyPage (Store.apply ⟨0x7c00 - 4, 4, l.ret⟩ (protectedMem l m₁))) x :=
    Store.run_congr _ hearly
  exact hmapped ▸ hk.mapped x hin

theorem Kernel.translate (h : Start l c m₁)
    (hrun : run l.addr (protectedMode l ++ setupLm l) 0 ⟨c, m₁⟩ = some s) (m : Mem) (va : Nat) :
    s.cpu.translate m va = (Walk.walk m FIRST_PML4_BASE va).map Walk.Translation.phys := by
  obtain rfl := Option.some.inj (h.run_eq.symm.trans hrun)
  exact translate_walk longCpu_paging longCpu_lma rfl

theorem Kernel.low (h : Start l c m₁)
    (hrun : run l.addr (protectedMode l ++ setupLm l) 0 ⟨c, m₁⟩ = some s) (hk : Kernel s m)
    {va : Nat} (hva : va < 2 ^ 30) : s.cpu.translate m va = some va := by
  rw [Kernel.translate h hrun, (Kernel.tables h hrun hk).walk (by omega), if_pos hva]
  rfl

theorem Kernel.apic (h : Start l c m₁)
    (hrun : run l.addr (protectedMode l ++ setupLm l) 0 ⟨c, m₁⟩ = some s) (hk : Kernel s m)
    {r : Nat} (hr : r < 2 ^ 21) :
    s.cpu.translate m (0x13370000000 + r) = some (0xfee00000 + r) := by
  obtain ⟨clean, hsame, hclean⟩ := Walk.exists_sameTables hk.mapped
  rw [Kernel.translate h hrun, Walk.walk_sameTables hsame (by decide)]
  exact ((HandOff.apicTables_mapAddr s.mem).congr hclean).walk hr

theorem view_low (h : Start l c m₁)
    (hrun : run l.addr (protectedMode l ++ setupLm l) 0 ⟨c, m₁⟩ = some s) (hk : Kernel s m)
    {va : Nat} (hva : va < 2 ^ 30) : view s.cpu m va = m va := by
  rw [view, Kernel.low h hrun hk hva, Option.elim_some]

/-- What the first stage stores is neither the map nor the APIC. -/
theorem Start.mem (h : Start l c m₁)
    (hrun : run l.addr (protectedMode l ++ setupLm l) 0 ⟨c, m₁⟩ = some s) {x : Nat}
    (hx : x < FIRST_PML4_BASE ∨ 0x36000 ≤ x) (hx' : 0x7e00 ≤ x) : s.mem x = m₁ x := by
  rw [h.mem_eq hrun, bootedMem_out hx (.inr (by omega)), if_neg]
  intro hloaded
  exact absurd hloaded.sector.2 (Nat.not_lt.mpr hx')

/-! ## The map -/

theorem visited_congr {m m' : Mem} (h : ∀ x, 0x14000 ≤ x → x < 0x16000 → m x = m' x) :
    visited m = visited m' := by
  have hcount : entryCount m = entryCount m' := by
    rw [entryCount, entryCount, h (e20Addr + 0x200) (by decide) (by decide)]
  have hlt := (entryCount m').isLt
  rw [visited, visited, hcount]
  refine List.map_congr_left fun ii hii => entryAt_congr fun x hx hx' => h x ?_ ?_
  · simp only [e20Addr] at hx
    omega
  · rw [List.mem_range] at hii
    simp only [e20Addr] at hx'
    omega

theorem visited_view (h : Start l c m₁)
    (hrun : run l.addr (protectedMode l ++ setupLm l) 0 ⟨c, m₁⟩ = some s) (hk : Kernel s m) :
    visited (view s.cpu m) = visited m₁ := by
  refine visited_congr fun x hx hx' => ?_
  rw [view_low h hrun hk (by omega), hk.map x hx hx', h.mem hrun (.inl ?_) (by omega)]
  simp only [FIRST_PML4_BASE]
  omega

/-- A kernel that has stored nothing else. -/
theorem kernel_mapAddr (s : Machine) : Kernel s (mapAddr apicCall s.mem) where
  mapped _ _ := .inl rfl
  map x hx hx' := mapAddr_out _ _ (.inl (by simp only [APIC_PDPTE]; omega))
    (.inl (by simp only [FIRST_PML4_BASE]; omega))
  id x hx _ := mapAddr_out _ _ (.inr (by simp only [APIC_PDE]; omega))
    (.inr (by simp only [FIRST_PML4_BASE]; omega))

variable {env : Env} {fuel : Nat} {status : Nat → BitVec 8} {device : Fin 4 → BitVec 16}
variable {dev : BitVec 16} {ds : List (Descriptor × BitVec 32)}

theorem kernelLog_eq (m : Mem) :
    kernelLog env (putcharSerial fuel status device) m ([], some 0) =
      some (writes fuel status device (bytes (log ((visited m).map record))) 0) := by
  rw [kernelLog, printLog_eq, Console.putcharSerial_fold,
    ← Console.bytes_eq (Console.isChar_log _)]
  rfl

/-- From the descriptors of the BIOS to the bytes on a serial line: a port receives the lines of
the whole map and nothing else, and the loop of `start_kernel` returns exactly if the ports get
ready once for each byte. -/
theorem boot_log_on_wire (h : Start l c m₀) (hds : (∀ p ∈ ds, p.2 ≠ 0) ∧ ds.length ≤ 21)
    (hbios : getPhysical (endCarry ds) m₀ = some m₁)
    (hrun : run l.addr (protectedMode l ++ setupLm l) 0 ⟨c, m₁⟩ = some s) (hk : Kernel s m)
    (hdev : dev ≠ 0) (hone : (List.ofFn device).count dev = 1) :
    (∀ fuel acc n, kernelLog env (putcharSerial fuel status device) (view s.cpu m) ([], some 0) =
        some (acc, some n) → received dev acc = wire (log (ds.map Prod.fst))) ∧
      ((∃ fuel acc n, kernelLog env (putcharSerial fuel status device) (view s.cpu m)
          ([], some 0) = some (acc, some n)) ↔
        ∃ N, present (List.ofFn device) * (bytes (log (ds.map Prod.fst))).length ≤
          readies status N) := by
  have hmap : visited (view s.cpu m) = ds.map fun p => p.1.entry := by
    have hover := Console.handOver_short hds.1 hds.2 m₀
    rw [handOver, hbios, Option.map_some, Option.some.injEq] at hover
    rw [visited_view (h.getPhysical hbios) hrun hk, hover]
  simp only [kernelLog_eq, hmap, Console.log_record]
  constructor
  · intro fuel acc n hlog
    have htrans : Transmits dev _ (writes fuel status device (bytes (log (ds.map Prod.fst)))) :=
      Console.transmits_bytes hdev hone _
    rw [Option.some.injEq] at hlog
    have hwhole := htrans.whole 0 n (congrArg Prod.snd hlog)
    rwa [hlog] at hwhole
  · have hzero : readies status 0 = 0 := Nat.count_zero _
    have hends : (∃ fuel n', (writes fuel status device (bytes (log (ds.map Prod.fst))) 0).2 =
        some n') ↔ _ := writes_ends_iff (bytes (log (ds.map Prod.fst))) 0
    rw [hzero, Nat.zero_add] at hends
    rw [← hends]
    refine exists_congr fun fuel => ?_
    constructor
    · rintro ⟨acc, n, heq⟩
      rw [Option.some.injEq] at heq
      exact ⟨n, congrArg Prod.snd heq⟩
    · rintro ⟨n, hn⟩
      exact ⟨_, n, congrArg (fun left => some (_, left)) hn⟩

/-- The boot of `boot_map` with COM1 alone, always ready. -/
theorem boot_log_on_wire_one : ∃ m₁ s fuel acc n,
    getPhysical (endCarry [(⟨0x100000, 0x7ee0000, 1, 1⟩, 1)]) (bootMem 0) = some m₁ ∧
      run bootLayout.addr (protectedMode bootLayout ++ setupLm bootLayout) 0 ⟨bootCpu, m₁⟩ =
        some s ∧
      kernelLog ⟨fun _ => [NUL], fun _ _ _ _ => [], fun _ _ _ _ => []⟩
          (putcharSerial fuel (fun _ => 0x60) fun i => if i.val = 0 then 0x3f8 else 0)
          (view s.cpu (mapAddr apicCall s.mem)) ([], some 0) = some (acc, some n) ∧
      received 0x3f8 acc = wire (log [⟨0x100000, 0x7ee0000, 1, 1⟩]) := by
  have hready : readies (fun _ => 0x60) 100 = 100 := readies_const (by decide) 100
  have hshort : handOver _ (bootMem 0) = _ :=
    Console.handOver_short (l := [(⟨0x100000, 0x7ee0000, 1, 1⟩, 1)]) (by simp) (by simp) _
  obtain ⟨m₁, hbios, -⟩ := Option.map_eq_some_iff.mp hshort
  have hrun := ((boot_start 0).getPhysical hbios).run_eq
  obtain ⟨hwhole, hends⟩ := @boot_log_on_wire _ _ _ _ _ _ ⟨fun _ => [NUL], fun _ _ _ _ => [],
    fun _ _ _ _ => []⟩ (fun _ => 0x60) (fun i => if i.val = 0 then 0x3f8 else 0) 0x3f8 _
    (boot_start 0) ⟨by simp, by simp⟩ hbios hrun (kernel_mapAddr _) (by decide) (by decide)
  obtain ⟨fuel, acc, n, hlog⟩ := hends.mpr ⟨100, by rw [hready]; decide +kernel⟩
  exact ⟨m₁, _, fuel, acc, n, hbios, hrun, hlog, hwhole fuel acc n hlog⟩

end

end LongMode
end DeliceOS
