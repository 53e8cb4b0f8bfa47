import LogicalFramework.Proofs.Conversion
import LogicalFramework.Proofs.NamelessReduction

/-!
# The convertibility test on nameless terms

The test opens binders, and it chooses their names to avoid those in use. On nameless terms there
is nothing to choose: the scopes of two binders are compared as they are, and an abstraction is
compared with a term that is brought under one more binder. The test on named terms computes this
one, with the same bound, so that its answer depends on the nameless forms alone.

The free variables are read under a valuation. It must give different names to different variables,
since the test tells variables apart, and must keep the reserved ones, since the test unfolds them.

* `Conversion.equal_eq_nameless` — the two tests agree.
-/

namespace LogicalFramework

/-! ## Valuations that keep variables apart -/

/-- That a valuation gives different names to different variables and keeps the `fixed` ones. -/
structure Valuation.Faithful (ν : Valuation) (fixed : List Variable) : Prop where
  /-- Variables stand for names. -/
  naming : ν.IsNaming
  /-- Different variables stand for different names. -/
  injective : Function.Injective ν
  /-- The fixed variables stand for themselves. -/
  fixes : ∀ x ∈ fixed, ν x = .name (.free x)

namespace Valuation.Faithful

theorem free (fixed : List Variable) : Valuation.free.Faithful fixed where
  naming := isNaming_free
  injective := by
    intro x y h
    exact Name.free.inj (Nameless.name.inj h)
  fixes := fun _ _ => rfl

theorem mono {ν : Valuation} {fixed fixed' : List Variable} (hν : ν.Faithful fixed)
    (h : ∀ x ∈ fixed', x ∈ fixed) : ν.Faithful fixed' :=
  ⟨hν.naming, hν.injective, fun x hx => hν.fixes x (h x hx)⟩

/-- A binder of a variable that is not fixed keeps variables apart. -/
theorem bind {ν : Valuation} {fixed : List Variable} (hν : ν.Faithful fixed) {z : Variable}
    (hz : z ∉ fixed) : (ν.bind z).Faithful fixed where
  naming := hν.naming.bind z
  injective := by
    -- A shifted name is not the name of the variable that the binder binds.
    have hzero : ∀ y, (ν y).shift ≠ .name (.bound 0) := by
      intro y h
      apply Nameless.not_mentions_shift (ν y)
      rw [h]
      rfl
    intro x y h
    by_cases hx : x = z <;> by_cases hy : y = z
    · rw [hx, hy]
    · rw [hx, bind_self, bind_of_ne ν hy] at h
      exact absurd h.symm (hzero y)
    · rw [hy, bind_self, bind_of_ne ν hx] at h
      exact absurd h (hzero x)
    · rw [bind_of_ne ν hx, bind_of_ne ν hy] at h
      exact hν.injective (Nameless.shift_injective h)
  fixes := by
    intro x hx
    have hxz : x ≠ z := fun he => hz (he ▸ hx)
    rw [bind_of_ne ν hxz, hν.fixes x hx]
    rfl

end Valuation.Faithful

/-! ## The test -/

namespace Nameless

/-- Whether the term is an abstraction or a dependent product. -/
def isBinder : Nameless → Bool
  | bind _ _ _ => true
  | _ => false

/-- The defined variable at the head of the term, and the term with this variable unfolded. -/
def unfoldHead? (defs : Definitions) : Nameless → Option (Variable × Nameless)
  | name (.free x) => (defs.lookup x).map fun u => (x, u.nameless)
  | app h a => (h.unfoldHead? defs).map fun (x, h') => (x, app h' a)
  | _ => none

end Nameless

namespace Conversion

/-- One side of a comparison of nameless terms. -/
structure NamelessSide where
  /-- The term that is compared. -/
  term : Nameless
  /-- The definitions not yet unfolded on the way to this term. -/
  definitions : Definitions

namespace NamelessSide

/-- The same side, comparing another term. -/
def put (s : NamelessSide) (t : Nameless) : NamelessSide :=
  { s with term := t }

/-- The side with the defined variable at its head unfolded and its definition dropped. -/
def unfolded? (s : NamelessSide) : Option NamelessSide :=
  (s.term.unfoldHead? s.definitions).map fun (x, t) => ⟨t, s.definitions.erase x⟩

/-- Compares two weak head normal forms, with `equal` for their parts. -/
def compareHeads (equal : NamelessSide → NamelessSide → Option Bool) (l r : NamelessSide) :
    Option Bool :=
  match l.term, r.term with
  | .app h a, .app h' a' =>
    if h.isBinder || h'.isBinder then some false
    else do if ← equal (l.put h) (r.put h') then equal (l.put a) (r.put a') else some false
  | .bind q A s, .bind q' B t =>
    if q = q' then do
      if ← equal (l.put A) (r.put B) then equal (l.put s) (r.put t) else some false
    else some false
  | .lam _ s, t => equal (l.put s) (r.put (.app t.shift (.name (.bound 0))))
  | t, .lam _ s => equal (l.put (.app t.shift (.name (.bound 0)))) (r.put s)
  | s, t => some (s = t)

/-- Compares two sides after unfolding those that have a defined head, if there are any. -/
def compareUnfolded (equal : NamelessSide → NamelessSide → Option Bool) (l r : NamelessSide) :
    Option Bool :=
  match l.unfolded?, r.unfolded? with
  | none, none => some false
  | l', r' => equal (l'.getD l) (r'.getD r)

/-- Whether two sides are convertible. -/
def equal (fuel : Nat) (l r : NamelessSide) : Option Bool :=
  match fuel with
  | 0 => none
  | fuel + 1 => do
    let l := l.put (← l.term.whnf fuel)
    let r := r.put (← r.term.whnf fuel)
    if ← compareHeads (equal fuel) l r then some true else compareUnfolded (equal fuel) l r

end NamelessSide

/-- A side with its term read under a valuation. -/
def Side.nameless (ν : Valuation) (s : Side) : NamelessSide :=
  ⟨s.term.namelessIn ν, s.definitions⟩

theorem Side.nameless_put (ν : Valuation) (s : Side) (t : Term) :
    (s.put t).nameless ν = (s.nameless ν).put (t.namelessIn ν) :=
  rfl

/-! ## Comparing heads -/

theorem isBinder_namelessIn {ν : Valuation} (hν : ν.IsNaming) (t : Term) :
    (t.namelessIn ν).isBinder = t.isBinder := by
  cases t with
  | var x =>
    obtain ⟨n, hn⟩ := hν x
    rw [Term.namelessIn, hn]
    rfl
  | _ => rfl

/-- Opening an abstraction against a term leaves the scope under its binder as it is, and brings
the term under one more binder. -/
theorem openEta_namelessIn (avoid : List Variable) (x : Variable) (s t : Term) :
    ∃ z, z ∉ avoid ∧ ∀ ν : Valuation,
      (openEta avoid x s t).1.namelessIn (ν.bind z) = s.namelessIn (ν.bind x) ∧
        (openEta avoid x s t).2.namelessIn (ν.bind z) =
          .app (t.namelessIn ν).shift (.name (.bound 0)) := by
  obtain ⟨z, hz, htz, hsz, he⟩ := openEta_spec avoid x s t
  refine ⟨z, hz, fun ν => ?_⟩
  rw [he]
  refine ⟨Term.namelessIn_rename_bind s ν hsz, ?_⟩
  rw [Term.namelessIn, Term.namelessIn, Valuation.bind_self,
    Term.namelessIn_bind_of_not_occursFree t ν htz]

namespace NamelessSide

variable {equal : NamelessSide → NamelessSide → Option Bool} {l r : NamelessSide}

theorem compareHeads_app {f a g b : Nameless} (hl : l.term = .app f a) (hr : r.term = .app g b) :
    compareHeads equal l r =
      if f.isBinder || g.isBinder then some false
      else (do if ← equal (l.put f) (r.put g) then equal (l.put a) (r.put b) else some false) := by
  unfold compareHeads
  rw [hl, hr]

theorem compareHeads_bind {q q' : Binder} {A s B t : Nameless} (hl : l.term = .bind q A s)
    (hr : r.term = .bind q' B t) :
    compareHeads equal l r =
      if q = q' then
        (do if ← equal (l.put A) (r.put B) then equal (l.put s) (r.put t) else some false)
      else some false := by
  unfold compareHeads
  rw [hl, hr]

theorem compareHeads_lam_left {A s : Nameless} (hl : l.term = .lam A s)
    (hr : r.term.isBinder = false) :
    compareHeads equal l r =
      equal (l.put s) (r.put (.app r.term.shift (.name (.bound 0)))) := by
  unfold compareHeads
  rw [hl]
  cases h : r.term with
  | bind q B t => exact absurd hr (by simp [h, Nameless.isBinder])
  | _ => rfl

theorem compareHeads_lam_right {A s : Nameless} (hl : l.term.isBinder = false)
    (hr : r.term = .lam A s) :
    compareHeads equal l r =
      equal (l.put (.app l.term.shift (.name (.bound 0)))) (r.put s) := by
  unfold compareHeads
  rw [hr]
  cases h : l.term with
  | bind q B t => exact absurd hl (by simp [h, Nameless.isBinder])
  | _ => rfl

end NamelessSide

/-- Terms of which neither is an abstraction, and which are neither both applications nor both
binders, are compared as they are. -/
theorem compareHeads_namelessIn_of_ne {equal : NamelessSide → NamelessSide → Option Bool}
    {l r : Side} {ν : Valuation} (hν : ν.IsNaming) (hinj : Function.Injective ν)
    (hl : ∀ x A s, l.term = .lam x A s → False) (hr : ∀ x A s, r.term = .lam x A s → False)
    (happ : ∀ f a g b, l.term = .app f a → r.term = .app g b → False)
    (hbind : ∀ q x A s q' y B t, l.term = .bind q x A s → r.term = .bind q' y B t → False) :
    NamelessSide.compareHeads equal (l.nameless ν) (r.nameless ν) =
      some (decide (l.term = r.term)) := by
  obtain ⟨l, δ⟩ := l
  obtain ⟨r, ε⟩ := r
  choose n hn using hν
  have hname : ∀ x y, n x = n y ↔ x = y := by
    intro x y
    rw [← Nameless.name.injEq, ← hn, ← hn]
    exact hinj.eq_iff
  unfold Side.nameless
  cases l with
  | bind q x A s =>
    cases q with
    | lam => exact (hl _ _ _ rfl).elim
    | pi =>
      cases r with
      | bind q' y B t => exact (hbind _ _ _ _ _ _ _ _ rfl rfl).elim
      | _ => simp [Term.namelessIn, NamelessSide.compareHeads, hn]
  | app f a =>
    cases r with
    | app g b => exact (happ _ _ _ _ rfl rfl).elim
    | bind q y B t =>
      cases q with
      | lam => exact (hr _ _ _ rfl).elim
      | pi => simp [Term.namelessIn, NamelessSide.compareHeads]
    | _ => simp [Term.namelessIn, NamelessSide.compareHeads, hn]
  | _ =>
    cases r with
    | bind q y B t =>
      cases q with
      | lam => exact (hr _ _ _ rfl).elim
      | pi => simp [Term.namelessIn, NamelessSide.compareHeads, hn]
    | _ => simp [Term.namelessIn, NamelessSide.compareHeads, hn, hname]

theorem isBinder_nameless_of_ne {s : Side} {ν : Valuation} (hν : ν.IsNaming)
    (hs : ∀ q x A t, s.term = .bind q x A t → False) : (s.nameless ν).term.isBinder = false := by
  rw [Side.nameless, isBinder_namelessIn hν]
  unfold Term.isBinder
  split
  · rename_i h
    exact (hs _ _ _ _ h).elim
  · rfl

/-- The heads of two sides are compared as those of their nameless forms, if the parts are. -/
theorem compareHeads_eq_nameless {equal : Side → Side → Option Bool}
    {equal' : NamelessSide → NamelessSide → Option Bool} {l r : Side} {ν : Valuation}
    (hν : ν.Faithful (reserved l r))
    (hequal : ∀ (s t : Term) (μ : Valuation), μ.Faithful (reserved l r) →
      equal (l.put s) (r.put t) = equal' ((l.put s).nameless μ) ((r.put t).nameless μ)) :
    compareHeads equal l r =
      NamelessSide.compareHeads equal' (l.nameless ν) (r.nameless ν) := by
  unfold compareHeads
  split
  · rename_i f a g b hl hr
    have hl' := congrArg (Term.namelessIn ν) hl
    have hr' := congrArg (Term.namelessIn ν) hr
    rw [NamelessSide.compareHeads_app (l := l.nameless ν) (r := r.nameless ν) hl' hr',
      isBinder_namelessIn hν.naming, isBinder_namelessIn hν.naming, hequal f g ν hν,
      hequal a b ν hν]
    rfl
  · rename_i q x A s q' y B t hl hr
    have hl' := congrArg (Term.namelessIn ν) hl
    have hr' := congrArg (Term.namelessIn ν) hr
    have hscopes : equal (l.put (Term.openTogether (reserved l r) x s y t).left)
        (r.put (Term.openTogether (reserved l r) x s y t).right) =
        equal' ((l.nameless ν).put (s.namelessIn (ν.bind x)))
          ((r.nameless ν).put (t.namelessIn (ν.bind y))) := by
      rw [hequal _ _ _ (hν.bind (Term.binder_openTogether_not_mem _ x s y t)), Side.nameless_put,
        Side.nameless_put, Term.namelessIn_openTogether_left, Term.namelessIn_openTogether_right]
      rfl
    rw [NamelessSide.compareHeads_bind (l := l.nameless ν) (r := r.nameless ν) hl' hr',
      hequal A B ν hν, hscopes]
    rfl
  · rename_i x A s hl hbind
    obtain ⟨z, hz, hopened⟩ := openEta_namelessIn (reserved l r) x s r.term
    have hl' := congrArg (Term.namelessIn ν) hl
    rw [NamelessSide.compareHeads_lam_left (l := l.nameless ν) (r := r.nameless ν) hl'
      (isBinder_nameless_of_ne hν.naming hbind)]
    show equal (l.put (openEta (reserved l r) x s r.term).1)
      (r.put (openEta (reserved l r) x s r.term).2) = _
    rw [hequal _ _ _ (hν.bind hz), Side.nameless_put, Side.nameless_put, (hopened ν).1,
      (hopened ν).2]
    rfl
  · rename_i x A s hr hbind
    obtain ⟨z, hz, hopened⟩ := openEta_namelessIn (reserved l r) x s l.term
    have hr' := congrArg (Term.namelessIn ν) hr
    rw [NamelessSide.compareHeads_lam_right (l := l.nameless ν) (r := r.nameless ν)
      (isBinder_nameless_of_ne hν.naming hbind) hr']
    show equal (l.put (openEta (reserved l r) x s l.term).2)
      (r.put (openEta (reserved l r) x s l.term).1) = _
    rw [hequal _ _ _ (hν.bind hz), Side.nameless_put, Side.nameless_put, (hopened ν).1,
      (hopened ν).2]
    rfl
  · rename_i hl hr happ hbind
    exact (compareHeads_namelessIn_of_ne hν.naming hν.injective hl hr happ hbind).symm

/-! ## Unfolding -/

/-- Unfolding keeps the name of the variable at the head, and reads off the nameless form of the
value and of the arguments. -/
theorem unfoldHead?_namelessIn {defs : Definitions} {ν : Valuation}
    (hν : ν.Faithful defs.reserved) (t : Term) :
    (t.namelessIn ν).unfoldHead? defs =
      match t.spineHead with
      | .var x => (defs.lookup x).map fun u => (x, (u.applyAll t.arguments).namelessIn ν)
      | _ => none := by
  induction t with
  | var x =>
    obtain ⟨n, hn⟩ := hν.naming x
    cases hx : defs.lookup x with
    | some u =>
      -- A defined variable is reserved, and so are the free variables of its value.
      obtain ⟨hreserved, hu⟩ := Definitions.reserved_of_lookup hx
      have hvalue : u.namelessIn ν = u.nameless := by
        rw [Term.nameless_eq_namelessIn]
        exact Term.namelessIn_congr u fun y hy => hν.fixes y (hu y hy)
      rw [Term.namelessIn, hν.fixes x hreserved, Nameless.unfoldHead?, hx]
      show _ = (defs.lookup x).map fun u => (x, u.namelessIn ν)
      rw [hx, Option.map_some, Option.map_some, hvalue]
    | none =>
      have hundefined : ∀ y, n = .free y → defs.lookup y = none := by
        intro y hy
        by_contra hdefined
        obtain ⟨u, hu⟩ := Option.ne_none_iff_exists'.mp hdefined
        have hyx : y = x := by
          apply hν.injective
          rw [hν.fixes y (Definitions.reserved_of_lookup hu).1, hn, hy]
        rw [hyx, hx] at hu
        exact absurd hu (by simp)
      rw [Term.namelessIn, hn]
      show _ = (defs.lookup x).map fun u => (x, u.namelessIn ν)
      rw [hx]
      cases n with
      | bound i => rfl
      | free y => rw [Nameless.unfoldHead?, hundefined y rfl, Option.map_none, Option.map_none]
  | app h a ihh _ =>
    rw [Term.namelessIn, Nameless.unfoldHead?, ihh, Term.spineHead, Term.arguments_app]
    cases h.spineHead with
    | var x =>
      show ((defs.lookup x).map _).map _ = (defs.lookup x).map _
      rw [Option.map_map]
      congr 1
      funext u
      simp only [Function.comp_apply, Term.applyAll, List.foldl_append, List.foldl_cons,
        List.foldl_nil, Term.namelessIn]
    | _ => rfl
  | _ => rfl

theorem unfolded?_nameless {s : Side} {ν : Valuation} (hν : ν.Faithful s.definitions.reserved) :
    (s.nameless ν).unfolded? = s.unfolded?.map (Side.nameless ν) := by
  unfold NamelessSide.unfolded? Side.unfolded? Side.nameless
  rw [unfoldHead?_namelessIn hν]
  cases s.term.spineHead with
  | var x =>
    show ((s.definitions.lookup x).map _).map _ = ((s.definitions.lookup x).map _).map _
    rw [Option.map_map, Option.map_map]
    rfl
  | _ => rfl

/-- Dropping definitions reserves nothing new. -/
theorem reserved_erase {defs : Definitions} {x y : Variable}
    (h : y ∈ Definitions.reserved (defs.erase x)) : y ∈ defs.reserved := by
  unfold Definitions.reserved at h ⊢
  obtain ⟨entry, hentry, hy⟩ := List.mem_flatMap.mp h
  exact List.mem_flatMap.mpr ⟨entry, (List.mem_filter.mp hentry).1, hy⟩

theorem reserved_getD_unfolded? {s : Side} {y : Variable}
    (h : y ∈ (s.unfolded?.getD s).definitions.reserved) : y ∈ s.definitions.reserved := by
  cases hs : s.unfolded? with
  | none =>
    rw [hs] at h
    exact h
  | some s' =>
    rw [hs] at h
    unfold Side.unfolded? at hs
    split at hs
    · rw [Option.map_eq_some_iff] at hs
      obtain ⟨u, _, rfl⟩ := hs
      exact reserved_erase h
    · exact absurd hs (by simp)

/-- Two sides are compared after unfolding as their nameless forms are. -/
theorem compareUnfolded_eq_nameless {equal : Side → Side → Option Bool}
    {equal' : NamelessSide → NamelessSide → Option Bool} {l r : Side} {ν : Valuation}
    (hν : ν.Faithful (reserved l r))
    (hequal : ∀ l' r' : Side, ν.Faithful (reserved l' r') →
      equal l' r' = equal' (l'.nameless ν) (r'.nameless ν)) :
    compareUnfolded equal l r =
      NamelessSide.compareUnfolded equal' (l.nameless ν) (r.nameless ν) := by
  have hl : ν.Faithful l.definitions.reserved := hν.mono fun x hx => List.mem_append_left _ hx
  have hr : ν.Faithful r.definitions.reserved := hν.mono fun x hx => List.mem_append_right _ hx
  have hunfolded : ν.Faithful (reserved (l.unfolded?.getD l) (r.unfolded?.getD r)) := by
    apply hν.mono
    intro x hx
    rcases List.mem_append.mp hx with hx | hx
    · exact List.mem_append_left _ (reserved_getD_unfolded? hx)
    · exact List.mem_append_right _ (reserved_getD_unfolded? hx)
  have hinner := hequal _ _ hunfolded
  unfold compareUnfolded NamelessSide.compareUnfolded
  rw [unfolded?_nameless hl, unfolded?_nameless hr]
  revert hinner
  cases l.unfolded? with
  | none =>
    cases r.unfolded? with
    | none => exact fun _ => rfl
    | some r' => exact id
  | some l' => cases r.unfolded? <;> exact id

/-! ## Agreement -/

/-- **The test depends on nameless forms only.** It computes the test on nameless terms, with the
same bound. -/
theorem equal_eq_nameless (fuel : Nat) {l r : Side} {ν : Valuation}
    (hν : ν.Faithful (reserved l r)) :
    equal fuel l r = NamelessSide.equal fuel (l.nameless ν) (r.nameless ν) := by
  induction fuel generalizing l r ν with
  | zero => rfl
  | succ fuel ih =>
    rw [equal, NamelessSide.equal]
    show _ = (do
      let l' := (l.nameless ν).put (← (l.term.namelessIn ν).whnf fuel)
      let r' := (r.nameless ν).put (← (r.term.namelessIn ν).whnf fuel)
      if ← NamelessSide.compareHeads (NamelessSide.equal fuel) l' r' then some true
      else NamelessSide.compareUnfolded (NamelessSide.equal fuel) l' r')
    rw [Term.whnf_namelessIn hν.naming, Term.whnf_namelessIn hν.naming]
    cases l.term.whnf fuel with
    | none => rfl
    | some l' =>
      cases r.term.whnf fuel with
      | none => rfl
      | some r' =>
        simp only [Option.bind_eq_bind, Option.bind_some, Option.map_some]
        rw [compareHeads_eq_nameless (l := l.put l') (r := r.put r') hν fun s t μ hμ => ih hμ,
          compareUnfolded_eq_nameless (l := l.put l') (r := r.put r') hν fun l r h => ih h]
        rfl

end Conversion

/-- The test with definitions computes the test on nameless forms. -/
theorem Term.equalUnder_eq_nameless (fuel : Nat) (defs : Definitions) (l r : Term) :
    l.equalUnder fuel defs r =
      Conversion.NamelessSide.equal fuel ⟨l.nameless, defs⟩ ⟨r.nameless, defs⟩ := by
  rw [nameless_eq_namelessIn, nameless_eq_namelessIn]
  exact Conversion.equal_eq_nameless (l := ⟨l, defs⟩) (r := ⟨r, defs⟩) fuel (.free _)

end LogicalFramework
