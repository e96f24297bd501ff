import DeliceOS.Printf.Grammar

/-!
# Printf.Terminator

Where the reading of a format ends. The NUL that ends a format ends the loop, except where a
directive is being read: there it is taken for the specifier, and the loop goes on with whatever
lies behind the format.

* `prints_terminator`: the text of a format with something behind it.
* `vsnprintf_terminated_iff`: the formats for which nothing behind the terminator matters.
-/

namespace DeliceOS
namespace Format

open Base Emit

/-- A format whose directives all end in it. -/
inductive Whole : List Char → Prop where
  | nil : Whole []
  | plain {c s} : c ≠ '%' → Whole s → Whole (c :: s)
  | directive {w s} : Written.Ok w → w.specifier ≠ NUL → Whole s → Whole ('%' :: (w.render ++ s))

section

variable {s rest : List Char} {w w' : Written} {va va' : Va} {env : Env} {t : List Char}

/-! ## Written forms and NUL -/

theorem NUL_notMem_amount {a : Amount} (ha : a.Ok) : NUL ∉ a.render := by
  cases a with
  | none => exact List.not_mem_nil
  | digits ds => exact fun h => absurd (ha.2 NUL h) (by decide)
  | star => decide

theorem NUL_notMem_size (z : Size) : NUL ∉ z.render := by
  cases z <;> decide

/-- Only the specifier of a directive can be NUL. -/
theorem render_concat (hw : w.Ok) : ∃ p, w.render = p ++ [w.specifier] ∧ NUL ∉ p := by
  have hflags : NUL ∉ w.flags := fun h => absurd (hw.flags.1 NUL h) (by decide)
  have hwidth := NUL_notMem_amount hw.width.1
  have hsize := NUL_notMem_size w.size
  have hprec := hw.precision
  unfold Written.render Written.afterFlags Written.afterWidth Written.afterPrecision
  cases hp : w.precision with
  | none =>
    refine ⟨w.flags ++ (w.width.render ++ w.size.render), by simp, ?_⟩
    simp [hflags, hwidth, hsize]
  | some a =>
    rw [hp] at hprec
    have hdot : NUL ≠ '.' := by decide
    refine ⟨w.flags ++ (w.width.render ++ ('.' :: (a.render ++ w.size.render))), by simp, ?_⟩
    simp [hflags, hwidth, hsize, NUL_notMem_amount hprec.1, hdot]

/-! ## Arguments for a format -/

theorem widthOf_args (a : Amount) (flags : Flags) :
    ∃ va₀ flags' n, ∀ va, Written.widthOf flags (va₀ ++ va) a = some (flags', n, va) := by
  cases a with
  | none => exact ⟨[], _, _, fun _ => rfl⟩
  | digits ds => exact ⟨[], _, _, fun _ => rfl⟩
  | star => exact ⟨[.int 0], flags, 0, fun _ => rfl⟩

theorem precisionOf_args (a : Amount) :
    ∃ va₀ n, ∀ va, Written.precisionOf (va₀ ++ va) a = some (n, va) := by
  cases a with
  | none => exact ⟨[], _, fun _ => rfl⟩
  | digits ds => exact ⟨[], _, fun _ => rfl⟩
  | star => exact ⟨[.int 0], 0, fun _ => rfl⟩

/-- The stars of a directive take arguments of their own. -/
theorem denote_args (w : Written) : ∃ va₀ d, ∀ va, w.denote (va₀ ++ va) = some (d, va) := by
  obtain ⟨va₁, flags, n, hwidth⟩ := widthOf_args w.width (w.flags.foldl setFlag {})
  cases hp : w.precision with
  | none =>
    refine ⟨va₁, ⟨w.size.apply flags, n, 0, w.specifier⟩, fun va => ?_⟩
    simp [Written.denote, hp, hwidth]
  | some a =>
    obtain ⟨va₂, prec, hprec⟩ := precisionOf_args a
    refine ⟨va₁ ++ va₂, ⟨w.size.apply { flags with precision := true }, n, prec, w.specifier⟩,
      fun va => ?_⟩
    simp [Written.denote, hp, hwidth, hprec]

/-- Every string is empty, and there is no text for a floating-point number. -/
def emptyEnv : Env := ⟨fun _ => [NUL], fun _ _ _ _ => [], fun _ _ _ _ => []⟩

theorem text_args (d : Directive) : ∃ va₀ t, ∀ va, d.text emptyEnv (va₀ ++ va) = some (t, va) := by
  unfold Directive.text
  cases conversion d.specifier with
  | integer => exact ⟨[.int 0], d.integerText 0, fun _ => rfl⟩
  | fixed => exact ⟨[.double 0], _, fun _ => rfl⟩
  | exponential => exact ⟨[.double 0], _, fun _ => rfl⟩
  | char => exact ⟨[.int 0], inField [NUL] 1 d.width d.flags, fun _ => rfl⟩
  | string => exact ⟨[.int 0], _, fun _ => rfl⟩
  | pointer => exact ⟨[.int 0], d.pointerText 0, fun _ => rfl⟩
  | percent => exact ⟨[], _, fun _ => rfl⟩
  | other => exact ⟨[], _, fun _ => rfl⟩

/-- A text starts with one directive at most. -/
theorem render_unique (hw : w.Ok) (hw' : w'.Ok) {r r' : List Char}
    (h : w.render ++ r = w'.render ++ r') : r = r' := by
  obtain ⟨va₀, d, hd⟩ := denote_args w
  have hread := directive_render hw (va₀ ++ []) r
  rw [h, directive_render hw', hd, Option.map_some, Option.map_eq_some_iff] at hread
  obtain ⟨q, -, heq⟩ := hread
  exact (congrArg (fun x => x.2.1) heq).symm

theorem evalLength_ne_nil (h : NUL ∈ s) (flags : Flags) : (evalLength flags s).2 ≠ [] := by
  unfold evalLength
  split <;> (rintro rfl; revert h; decide)

theorem evalPrecision_ne_none (h : NUL ∈ s) :
    ∃ va₀, ∀ (flags : Flags) (n : Nat), ∃ f, evalPrecision ⟨flags, n, 0, s, va₀⟩ = some f ∧ NUL ∈ f.format := by
  by_cases hdot : Stops (· == '.') s
  · exact ⟨[], fun flags n => ⟨_, evalPrecision_none hdot, h⟩⟩
  · obtain ⟨t, rfl⟩ := dot_of_not_stops hdot
    obtain ⟨a, t', rfl, ha, hstop⟩ := amount_written t
    obtain ⟨va₀, prec, hprec⟩ := precisionOf_args a
    have hmem : NUL ∈ t' := by
      simpa [NUL_notMem_amount ha, show NUL ≠ '.' by decide] using h
    refine ⟨va₀ ++ [], fun flags n => ?_⟩
    rw [evalPrecision_render ha hstop rfl, hprec]
    exact ⟨_, rfl, hmem⟩

/-- Behind a `%` there is a directive, if only a NUL follows. -/
theorem exists_written (h : NUL ∈ s) : ∃ (w : Written) (r : List Char), w.Ok ∧ s = w.render ++ r := by
  obtain ⟨fl, s₁, rfl, hfl, hstop₁⟩ := run_written isFlag s
  have hmem₁ : NUL ∈ s₁ := by
    have hnot : NUL ∉ fl := fun hc => absurd (hfl NUL hc) (by decide)
    simpa [hnot] using h
  obtain ⟨a, s₂, rfl, ha, hstop₂⟩ := amount_written s₁
  have hmem₂ : NUL ∈ s₂ := by simpa [NUL_notMem_amount ha] using hmem₁
  obtain ⟨va₁, flags, n, hwidth⟩ := widthOf_args a (fl.foldl setFlag {})
  obtain ⟨va₂, hprec⟩ := evalPrecision_ne_none hmem₂
  obtain ⟨f, hf, hmem₃⟩ := hprec flags n
  have hread : ∃ d r va, directive (fl ++ (a.render ++ s₂)) (va₁ ++ va₂) = some (d, r, va) := by
    rw [directive_eq hfl hstop₁, evalWidth_render ha hstop₂ (fun _ => List.ne_nil_of_mem hmem₂),
      hwidth, Option.map_some, Option.bind_some, hf, Option.bind_some]
    unfold evalSpecifier
    split
    · rename_i hlen
      exact absurd (congrArg Prod.snd hlen) (evalLength_ne_nil hmem₃ _)
    · exact ⟨_, _, _, rfl⟩
  obtain ⟨d, r, va, hread⟩ := hread
  obtain ⟨w, hw, heq⟩ := directive_written hread
  exact ⟨w, r, hw, heq⟩

/-! ## What a call reads -/

/-- A directive in a terminated format ends before the terminator or takes it for its specifier. -/
theorem directive_split {r : List Char} (hs : NUL ∉ s) (hw : w.Ok)
    (h : s ++ NUL :: rest = w.render ++ r) :
    (w.specifier ≠ NUL ∧ ∃ u, s = w.render ++ u ∧ r = u ++ NUL :: rest) ∨
      (w.specifier = NUL ∧ s ++ [NUL] = w.render ∧ r = rest) := by
  obtain ⟨p, hp, hnot⟩ := render_concat hw
  rw [hp, List.append_assoc, List.singleton_append, List.append_eq_append_iff] at h
  rw [hp]
  rcases h with ⟨a, rfl, ha⟩ | ⟨a, rfl, ha⟩
  · cases a with
    | nil =>
      rw [List.nil_append, List.cons.injEq] at ha
      refine .inr ⟨ha.1.symm, ?_, ha.2.symm⟩
      rw [List.append_nil, ha.1]
    | cons x a =>
      rw [List.cons_append, List.cons.injEq] at ha
      rw [← ha.1] at hnot
      simp at hnot
  · cases a with
    | nil =>
      rw [List.nil_append, List.cons.injEq] at ha
      refine .inr ⟨ha.1, ?_, ha.2⟩
      rw [List.append_nil, ha.1]
    | cons x a =>
      rw [List.cons_append, List.cons.injEq] at ha
      refine .inl ⟨fun hc => hs ?_, a, ?_, ha.2⟩
      · rw [← hc, ha.1]
        simp
      · rw [ha.1]
        simp

theorem whole_cons (hc : t = '%' :: s) (h : Whole t) :
    ∃ w u, Written.Ok w ∧ w.specifier ≠ NUL ∧ Whole u ∧ s = w.render ++ u := by
  cases h with
  | nil => cases hc
  | plain hne _ =>
    rw [List.cons.injEq] at hc
    exact absurd hc.1 hne
  | directive hw hspec hu =>
    rw [List.cons.injEq] at hc
    exact ⟨_, _, hw, hspec, hu, hc.2.symm⟩

theorem whole_tail {c : Char} (hc : c ≠ '%') (h : Whole (c :: s)) : Whole s := by
  cases h with
  | plain _ h => exact h
  | directive _ _ _ => exact absurd rfl hc

/-- The text of a terminated format with `rest` behind it: of the format alone, or, when a
directive takes the terminator for its specifier, that of `rest` as well. -/
theorem prints_terminator (hs : NUL ∉ s) (h : Prints env (s ++ NUL :: rest) va t va') :
    (Whole s ∧ ∀ rest', Prints env (s ++ NUL :: rest') va t va') ∨
      (¬ Whole s ∧ ∃ t₀ t₁ va₁, t = t₀ ++ NUL :: t₁ ∧ Prints env rest va₁ t₁ va') := by
  generalize hf : s ++ NUL :: rest = format at h
  induction h generalizing s with
  | done =>
    cases s with
    | nil => exact .inl ⟨.nil, fun _ => .done⟩
    | cons c s =>
      rw [List.cons_append, List.cons.injEq] at hf
      rw [hf.1] at hs
      exact absurd List.mem_cons_self hs
  | @plain c format va t va' hnul hpercent _ ih =>
    cases s with
    | nil =>
      rw [List.nil_append, List.cons.injEq] at hf
      exact absurd hf.1.symm hnul
    | cons c' s =>
      rw [List.cons_append, List.cons.injEq] at hf
      obtain ⟨rfl, hf⟩ := hf
      rcases ih (fun h => hs (List.mem_cons_of_mem _ h)) hf with ⟨hwhole, hall⟩ | ⟨hcut, t₀, t₁, va₁, ht, hrest⟩
      · exact .inl ⟨.plain hpercent hwhole, fun rest' => .plain hnul hpercent (hall rest')⟩
      · refine .inr ⟨fun h => hcut (whole_tail hpercent h), c' :: t₀, t₁, va₁, ?_, hrest⟩
        rw [ht, List.cons_append]
  | @directive format r d va va₁ va₂ va' t₁ t hdir htext hprints ih =>
    cases s with
    | nil =>
      rw [List.nil_append, List.cons.injEq] at hf
      exact absurd hf.1 (by decide)
    | cons c s =>
      rw [List.cons_append, List.cons.injEq] at hf
      obtain ⟨rfl, rfl⟩ := hf
      have hs' : NUL ∉ s := fun h => hs (List.mem_cons_of_mem _ h)
      obtain ⟨w, hw, heq, hspec, hlocal⟩ := directive_local hdir
      rcases directive_split hs' hw heq with ⟨hne, u, rfl, hr⟩ | ⟨hnul, hend, rfl⟩
      · -- the directive ends in the format
        have hu : NUL ∉ u := fun h => hs' (List.mem_append_right _ h)
        rcases ih hu hr.symm with ⟨hwhole, hall⟩ | ⟨hcut, t₀, t₂, va₃, ht, hrest⟩
        · refine .inl ⟨.directive hw hne hwhole, fun rest' => .directive ?_ htext (hall rest')⟩
          have hread := hlocal (u ++ NUL :: rest')
          rwa [← List.append_assoc] at hread
        · refine .inr ⟨fun h => ?_, t₁ ++ t₀, t₂, va₃, ?_, hrest⟩
          · obtain ⟨w', u', hw', -, hu', hsame⟩ := whole_cons rfl h
            rw [render_unique hw hw' hsame] at hcut
            exact hcut hu'
          · rw [ht, List.append_assoc]
      · -- the terminator is the specifier
        have hconv : conversion d.specifier = .other := by
          rw [← hspec, hnul]
          rfl
        rw [Directive.text, hconv] at htext
        cases htext
        refine .inr ⟨fun h => ?_, [], t, va₁, ?_, hprints⟩
        · obtain ⟨w', u', hw', -, -, hsame⟩ := whole_cons rfl h
          rw [hsame, List.append_assoc] at heq
          have hlen := congrArg List.length (render_unique hw' hw heq)
          simp at hlen
          omega
        · rw [← hspec, hnul]
          rfl

/-- Some arguments are enough for any format. -/
theorem exists_prints (n : Nat) : ∀ s : List Char, s.length = n → NUL ∉ s →
    ∃ va₀, ∀ va, ∃ t, Prints emptyEnv (s ++ NUL :: [NUL]) (va₀ ++ va) t va := by
  induction n using Nat.strong_induction_on with
  | _ n ih =>
    intro s hn hs
    cases s with
    | nil => exact ⟨[], fun va => ⟨[], .done⟩⟩
    | cons c s =>
      rw [List.length_cons] at hn
      have hs' : NUL ∉ s := fun h => hs (List.mem_cons_of_mem _ h)
      by_cases hpercent : c = '%'
      · obtain ⟨w, r, hw, heq⟩ := exists_written (s := s ++ NUL :: [NUL]) (by simp)
        obtain ⟨va₁, d, hdenote⟩ := denote_args w
        obtain ⟨va₂, t₁, htext⟩ := text_args d
        obtain ⟨va₃, hrest⟩ : ∃ va₀, ∀ va, ∃ t, Prints emptyEnv r (va₀ ++ va) t va := by
          rcases directive_split hs' hw heq with ⟨-, u, rfl, rfl⟩ | ⟨-, -, rfl⟩
          · refine ih u.length ?_ u rfl fun h => hs' (List.mem_append_right _ h)
            rw [← hn, List.length_append]
            omega
          · exact ⟨[], fun va => ⟨[], .done⟩⟩
        refine ⟨va₁ ++ (va₂ ++ va₃), fun va => ?_⟩
        obtain ⟨t, ht⟩ := hrest va
        refine ⟨t₁ ++ t, ?_⟩
        rw [hpercent, List.cons_append, heq]
        refine .directive ?_ (htext (va₃ ++ va)) ht
        rw [directive_render hw, List.append_assoc, List.append_assoc, hdenote, Option.map_some]
      · obtain ⟨va₀, hall⟩ := ih s.length (by omega) s rfl hs'
        refine ⟨va₀, fun va => ?_⟩
        obtain ⟨t, ht⟩ := hall va
        exact ⟨c :: t, .plain (fun h => hs (h ▸ List.mem_cons_self)) hpercent ht⟩

/-- A format whose directives all end in it is a format for which nothing behind its terminator
matters. -/
theorem vsnprintf_terminated_iff (hs : NUL ∉ s) :
    Whole s ↔
      ∀ (σ : Type) (env : Env) (out : Out σ) (null : Bool) (buffer : σ) (maxlen : Nat) (va : Va)
        (rest rest' : List Char),
        vsnprintf env out null buffer maxlen (s ++ NUL :: rest) va =
          vsnprintf env out null buffer maxlen (s ++ NUL :: rest') va := by
  constructor
  · intro hwhole σ env out null buffer maxlen va rest rest'
    have hprints : ∀ {rest rest' t va'}, Prints env (s ++ NUL :: rest) va t va' →
        Prints env (s ++ NUL :: rest') va t va' := by
      intro rest rest' t va' h
      rcases prints_terminator hs h with ⟨-, hall⟩ | ⟨hcut, -⟩
      · exact hall rest'
      · exact absurd hwhole hcut
    ext ⟨r, b⟩
    rw [vsnprintf_eq_some_iff, vsnprintf_eq_some_iff]
    exact exists_congr fun t => exists_congr fun va' => and_congr_left fun _ => ⟨hprints, hprints⟩
  · intro hall
    obtain ⟨va, hva⟩ := exists_prints s.length s rfl hs
    obtain ⟨t, ht⟩ := hva []
    have hcall : vsnprintf emptyEnv outNull true () 0 (s ++ NUL :: [NUL]) (va ++ []) =
        some (returned t, ()) := vsnprintf_eq_some_iff.mpr ⟨t, [], ht, rfl, rfl⟩
    rw [hall Unit emptyEnv outNull true () 0 (va ++ []) [NUL] []] at hcall
    obtain ⟨t', va', ht', -⟩ := vsnprintf_eq_some_iff.mp hcall
    rcases prints_terminator hs ht' with ⟨hwhole, -⟩ | ⟨-, t₀, t₁, va₁, -, hrest⟩
    · exact hwhole
    · cases hrest

/-- A format that ends in `%`. -/
theorem vsnprintf_percent : ¬ ∀ (σ : Type) (env : Env) (out : Out σ) (null : Bool) (buffer : σ)
    (maxlen : Nat) (va : Va) (rest rest' : List Char),
    vsnprintf env out null buffer maxlen (['%'] ++ NUL :: rest) va =
      vsnprintf env out null buffer maxlen (['%'] ++ NUL :: rest') va := by
  rw [← vsnprintf_terminated_iff (by decide)]
  intro h
  obtain ⟨w, u, hw, -, -, hnil⟩ := whole_cons rfl h
  obtain ⟨p, hp, -⟩ := render_concat hw
  simp [hp] at hnil

end

end Format
end DeliceOS
