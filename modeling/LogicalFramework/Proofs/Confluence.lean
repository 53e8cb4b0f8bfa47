import LogicalFramework.Proofs.Congruence

/-!
# Confluence

Parallel reduction contracts any number of redexes that are there at the same time. It comes with η
or without. With η, the type in an abstraction is lost: both `λ x : A. s` and `λ x : B. s` come out
of `λ x : A. (λ y : B. s) x`, by β and by η. So with η the type may also be reset.

Every term has a development, to which all terms reduce that it reduces to in parallel
(`exists_development`). This gives confluence, and from it what convertibility says about products:

* `Convertible.pi_inj` — products are convertible only if their domains and codomains are;
* `not_convertible_pi_type` — a product is not convertible to `Type`.
-/

namespace LogicalFramework

/-- Contraction of any number of redexes at once, with η if `η` holds. -/
inductive Parallel (η : Prop) : Nameless → Nameless → Prop where
  | type : Parallel η .type .type
  | const (c : Constant) : Parallel η (.const c) (.const c)
  | name (n : Name) : Parallel η (.name n) (.name n)
  | metaVar (m : MetaVariable) : Parallel η (.metaVar m) (.metaVar m)
  | app {f g a b : Nameless} (hf : Parallel η f g) (ha : Parallel η a b) :
      Parallel η (.app f a) (.app g b)
  | bind (q : Binder) {A B s t : Nameless} (hA : Parallel η A B) (hs : Parallel η s t) :
      Parallel η (.bind q A s) (.bind q B t)
  | beta (A : Nameless) {s t a b : Nameless} (hs : Parallel η s t) (ha : Parallel η a b) :
      Parallel η (.app (.lam A s) a) (t.instantiate b)
  | eta (h : η) (A : Nameless) {s t : Nameless} (hs : Parallel η s t) :
      Parallel η (.etaExpansion A s) t
  | reset (h : η) (A : Nameless) {s t : Nameless} (hs : Parallel η s t) :
      Parallel η (.lam A s) (.lam .type t)

namespace Parallel

variable {η : Prop}

theorem refl (t : Nameless) : Parallel η t t := by
  induction t with
  | type => exact type
  | const c => exact const c
  | name n => exact name n
  | metaVar m => exact metaVar m
  | app h a ihh iha => exact app ihh iha
  | bind q A s ihA ihs => exact bind q ihA ihs

/-! ## Renaming and substitution -/

theorem rename {s t : Nameless} (h : Parallel η s t) (ρ : Name → Name) :
    Parallel η (s.rename ρ) (t.rename ρ) := by
  induction h generalizing ρ with
  | app _ _ ihf iha => exact app (ihf ρ) (iha ρ)
  | bind q _ _ ihA ihs => exact bind q (ihA ρ) (ihs (Name.lift ρ))
  | beta A _ _ ihs iha =>
    rw [Nameless.instantiate_rename]
    exact beta (A.rename ρ) (ihs (Name.lift ρ)) (iha ρ)
  | eta h A _ ih =>
    rw [Nameless.etaExpansion_rename]
    exact eta h (A.rename ρ) (ih ρ)
  | reset h A _ ih => exact reset h (A.rename ρ) (ih (Name.lift ρ))
  | _ => exact refl _

theorem lift {σ τ : Name → Nameless} (h : ∀ n, Parallel η (σ n) (τ n)) (n : Name) :
    Parallel η (Nameless.lift σ n) (Nameless.lift τ n) := by
  rcases Name.eq_zero_or_succ n with rfl | ⟨m, rfl⟩
  · exact refl _
  · rw [Nameless.lift_succ, Nameless.lift_succ]
    exact (h m).rename Name.succ

theorem subst {s t : Nameless} (h : Parallel η s t) {σ τ : Name → Nameless}
    (hσ : ∀ n, Parallel η (σ n) (τ n)) : Parallel η (s.subst σ) (t.subst τ) := by
  induction h generalizing σ τ with
  | name n => exact hσ n
  | app _ _ ihf iha => exact app (ihf hσ) (iha hσ)
  | bind q _ _ ihA ihs => exact bind q (ihA hσ) (ihs (lift hσ))
  | beta A _ _ ihs iha =>
    rw [Nameless.instantiate_subst]
    exact beta (A.subst σ) (ihs (lift hσ)) (iha hσ)
  | eta h A _ ih =>
    rw [Nameless.etaExpansion_subst]
    exact eta h (A.subst σ) (ih hσ)
  | reset h A _ ih => exact reset h (A.subst σ) (ih (lift hσ))
  | _ => exact refl _

theorem instantiate {s t a b : Nameless} (hs : Parallel η s t) (ha : Parallel η a b) :
    Parallel η (s.instantiate a) (t.instantiate b) :=
  hs.subst (Name.under_related ha fun _ => refl _)

/-- A renamed term reduces only to renamed terms, as the term does before the renaming. -/
theorem exists_of_rename {t u : Nameless} {ρ : Name → Name} (h : Parallel η (t.rename ρ) u)
    (hρ : Function.Injective ρ) : ∃ v, u = v.rename ρ ∧ Parallel η t v := by
  generalize hr : t.rename ρ = r at h
  induction h generalizing t ρ with
  | type | const c | name n | metaVar m => exact ⟨t, hr.symm, refl t⟩
  | app _ _ ihf iha =>
    obtain ⟨f, a, rfl, hf, ha⟩ := Nameless.rename_eq_app hr
    obtain ⟨g, rfl, hg⟩ := ihf hρ hf
    obtain ⟨b, rfl, hb⟩ := iha hρ ha
    exact ⟨.app g b, rfl, app hg hb⟩
  | bind q _ _ ihA ihs =>
    obtain ⟨A, s, rfl, hA, hs⟩ := Nameless.rename_eq_bind hr
    obtain ⟨B, rfl, hB⟩ := ihA hρ hA
    obtain ⟨r, rfl, hr⟩ := ihs (Name.lift_injective hρ) hs
    exact ⟨.bind q B r, rfl, bind q hB hr⟩
  | beta A _ _ ihs iha =>
    obtain ⟨f, a, rfl, hf, ha⟩ := Nameless.rename_eq_app hr
    obtain ⟨A, s, rfl, _, hs⟩ := Nameless.rename_eq_bind hf
    obtain ⟨r, rfl, hr⟩ := ihs (Name.lift_injective hρ) hs
    obtain ⟨b, rfl, hb⟩ := iha hρ ha
    exact ⟨r.instantiate b, (Nameless.instantiate_rename r b ρ).symm, beta A hr hb⟩
  | eta h A _ ih =>
    obtain ⟨A, s, rfl, _, hs⟩ := Nameless.rename_eq_bind hr
    obtain ⟨f, a, rfl, hf, ha⟩ := Nameless.rename_eq_app hs
    obtain ⟨n, rfl, hn⟩ := Nameless.rename_eq_name ha
    obtain ⟨v, rfl, rfl⟩ := Nameless.exists_shift_of_rename_lift hf
    obtain ⟨w, rfl, hw⟩ := ih hρ rfl
    have hzero : n = .bound 0 := Name.lift_injective hρ hn
    rw [hzero]
    exact ⟨w, rfl, eta h A hw⟩
  | reset h A _ ih =>
    obtain ⟨A, s, rfl, _, hs⟩ := Nameless.rename_eq_bind hr
    obtain ⟨r, rfl, hr⟩ := ih (Name.lift_injective hρ) hs
    exact ⟨.lam .type r, rfl, reset h A hr⟩

theorem exists_of_shift {t u : Nameless} (h : Parallel η t.shift u) :
    ∃ v : Nameless, u = v.shift ∧ Parallel η t v :=
  h.exists_of_rename Name.succ_injective

/-! ## Developments -/

/-- With η, the type in an abstraction does not matter to what it reduces to with the type reset. -/
theorem lam_of_lam_type (h : η) {A s u : Nameless} (hu : Parallel η (.lam .type s) u) :
    Parallel η (.lam A s) u := by
  cases hu with
  | bind q hA hs =>
    cases hA
    exact reset h A hs
  | eta _ _ hs => exact eta h A hs
  | reset _ _ hs => exact reset h A hs

/-- Contracting a redex, and what its parts reduce to, is a development of the redex. -/
theorem development_redex {A s a ds da : Nameless} (hs : ∀ u, Parallel η s u → Parallel η u ds)
    (ha : ∀ u, Parallel η a u → Parallel η u da) {u : Nameless}
    (hu : Parallel η (.app (.lam A s) a) u) : Parallel η u (ds.instantiate da) := by
  cases hu with
  | beta _ hs' ha' => exact instantiate (hs _ hs') (ha _ ha')
  | app hf ha' =>
    cases hf with
    | bind _ hA' hs' => exact beta _ (hs _ hs') (ha _ ha')
    | reset _ _ hs' => exact beta _ (hs _ hs') (ha _ ha')
    | eta h _ ht =>
      -- The scope applies a term to the variable, and so does what it reduces to.
      have hscope := hs _ (app (ht.rename Name.succ) (refl (.name (.bound 0))))
      have hinst := instantiate hscope (ha _ ha')
      rw [← Nameless.shift, Nameless.instantiate_app_shift] at hinst
      exact hinst

/-- What the scope of an η-redex reduces to, under any type, reduces to what develops the contracted
redex. -/
theorem development_eta_scope (h : η) {t d : Nameless} (ht : ∀ u, Parallel η t u → Parallel η u d)
    {s : Nameless} (hs : Parallel η (.app t.shift (.name (.bound 0))) s) (A : Nameless) :
    Parallel η (.lam A s) d := by
  generalize hf : t.shift = f at hs
  cases hs with
  | app hf' ha' =>
    cases ha'
    rw [← hf] at hf'
    obtain ⟨v, rfl, hv⟩ := hf'.exists_of_shift
    exact eta h A (ht v hv)
  | beta B hp ha' =>
    -- The term is itself an abstraction: β and η differ in its type only.
    cases ha'
    obtain ⟨B, p, rfl, _, rfl⟩ := Nameless.rename_eq_bind hf
    obtain ⟨r, rfl, hr⟩ := hp.exists_of_rename (Name.lift_injective Name.succ_injective)
    rw [Nameless.instantiate_rename_lift_succ]
    exact lam_of_lam_type h (ht _ (reset h B hr))

/-- What develops a term develops its η-expansions. -/
theorem development_eta (h : η) {A t d : Nameless} (ht : ∀ u, Parallel η t u → Parallel η u d)
    {u : Nameless} (hu : Parallel η (.etaExpansion A t) u) : Parallel η u d := by
  unfold Nameless.etaExpansion at hu
  generalize hs : Nameless.app t.shift (.name (.bound 0)) = s at hu
  cases hu with
  | bind _ _ hs' => exact development_eta_scope h ht (hs ▸ hs') _
  | reset _ _ hs' => exact development_eta_scope h ht (hs ▸ hs') _
  | eta _ _ ht' =>
    have htt := Nameless.shift_injective (Nameless.app.inj hs).1
    exact ht _ (htt ▸ ht')

/-- **Developments.** Every term has a reduct to which all its parallel reducts reduce. -/
theorem exists_development (t : Nameless) : ∃ d, ∀ u, Parallel η t u → Parallel η u d := by
  -- The term in an η-redex is not a part of the redex but a part shifted back, so the induction is
  -- on the size.
  induction hn : t.size using Nat.strong_induction_on generalizing t with
  | _ n ih =>
  cases t with
  | type => exact ⟨.type, fun u hu => by cases hu; exact type⟩
  | const c => exact ⟨.const c, fun u hu => by cases hu; exact const c⟩
  | name n => exact ⟨.name n, fun u hu => by cases hu; exact name n⟩
  | metaVar m => exact ⟨.metaVar m, fun u hu => by cases hu; exact metaVar m⟩
  | app f a =>
    rw [Nameless.size] at hn
    obtain ⟨da, hda⟩ := ih a.size (by omega) a rfl
    by_cases hlam : ∃ A s, f = .lam A s
    · obtain ⟨A, s, rfl⟩ := hlam
      rw [Nameless.size] at hn
      obtain ⟨ds, hds⟩ := ih s.size (by omega) s rfl
      exact ⟨ds.instantiate da, fun u hu => development_redex hds hda hu⟩
    · obtain ⟨df, hdf⟩ := ih f.size (by omega) f rfl
      refine ⟨.app df da, fun u hu => ?_⟩
      cases hu with
      | app hf ha => exact app (hdf _ hf) (hda _ ha)
      | beta A _ _ => exact absurd ⟨A, _, rfl⟩ hlam
  | bind q A s =>
    rw [Nameless.size] at hn
    obtain ⟨dA, hdA⟩ := ih A.size (by omega) A rfl
    obtain ⟨ds, hds⟩ := ih s.size (by omega) s rfl
    by_cases hη : η ∧ q = .lam
    · obtain ⟨h, rfl⟩ := hη
      by_cases hredex : ∃ t : Nameless, s = .app t.shift (.name (.bound 0))
      · obtain ⟨t, rfl⟩ := hredex
        rw [Nameless.size, Nameless.shift, Nameless.size_rename] at hn
        obtain ⟨d, hd⟩ := ih t.size (by omega) t rfl
        exact ⟨d, fun u hu => development_eta h hd hu⟩
      · -- An abstraction that is no redex is developed with its type reset.
        refine ⟨.lam .type ds, fun u hu => ?_⟩
        cases hu with
        | bind _ _ hs => exact reset h _ (hds _ hs)
        | reset _ _ hs => exact reset h _ (hds _ hs)
        | eta _ _ _ => exact absurd ⟨_, rfl⟩ hredex
    · refine ⟨.bind q dA ds, fun u hu => ?_⟩
      cases hu with
      | bind _ hA hs => exact bind q (hdA _ hA) (hds _ hs)
      | reset h _ _ => exact absurd ⟨h, rfl⟩ hη
      | eta h _ _ => exact absurd ⟨h, rfl⟩ hη

/-! ## Confluence -/

/-- Any number of parallel reductions, one after the other. -/
abbrev Many (η : Prop) : Nameless → Nameless → Prop :=
  Relation.ReflTransGen (Parallel η)

theorem Many.app {f g a b : Nameless} (hf : Many η f g) (ha : Many η a b) :
    Many η (.app f a) (.app g b) :=
  (hf.lift (fun r => Nameless.app r a) fun _ _ h => .app h (.refl a)).trans
    (ha.lift (fun r => Nameless.app g r) fun _ _ h => .app (.refl g) h)

theorem Many.bind (q : Binder) {A B s t : Nameless} (hA : Many η A B) (hs : Many η s t) :
    Many η (.bind q A s) (.bind q B t) :=
  (hA.lift (fun r => Nameless.bind q r s) fun _ _ h => .bind q h (.refl s)).trans
    (hs.lift (fun r => Nameless.bind q B r) fun _ _ h => .bind q (.refl B) h)

theorem confluent {t u v : Nameless} (hu : Many η t u) (hv : Many η t v) :
    Relation.Join (Many η) u v := by
  refine Relation.church_rosser (fun a b c hab hac => ?_) hu hv
  obtain ⟨d, hd⟩ := exists_development (η := η) a
  exact ⟨d, .single (hd b hab), .single (hd c hac)⟩

/-- A product reduces to products only, by reducing its parts. -/
theorem many_pi {A B d : Nameless} (h : Many η (.pi A B) d) :
    ∃ A' B', d = .pi A' B' ∧ Many η A A' ∧ Many η B B' := by
  induction h with
  | refl => exact ⟨A, B, rfl, .refl, .refl⟩
  | tail _ hstep ih =>
    obtain ⟨A', B', rfl, hA, hB⟩ := ih
    cases hstep with
    | bind _ hA' hB' => exact ⟨_, _, rfl, hA.tail hA', hB.tail hB'⟩

theorem many_type {d : Nameless} (h : Many η .type d) : d = .type := by
  induction h with
  | refl => rfl
  | tail _ hstep ih =>
    subst ih
    cases hstep
    rfl

end Parallel

/-! ## Convertibility -/

/-- The type in an abstraction does not matter up to convertibility. -/
theorem convertible_lam_domain (A B s : Nameless) : Convertible (.lam A s) (.lam B s) := by
  have hβ : Beta (.app (Nameless.lam B s).shift (.name (.bound 0))) s := by
    have h := Beta.contract B.shift (s.rename (Name.lift Name.succ)) (.name (.bound 0))
    rw [Nameless.instantiate_rename_lift_succ] at h
    exact h
  have hη : Eta (.etaExpansion A (.lam B s)) (.lam B s) := Eta.contract A (.lam B s)
  exact (Congruence.bind .lam (.refl A) (.symm (.rule (Or.inl hβ)))).trans (.rule (Or.inr hη))

theorem Parallel.convertible {s t : Nameless} (h : Parallel True s t) : Convertible s t := by
  induction h with
  | app _ _ ihf iha => exact .app ihf iha
  | bind q _ _ ihA ihs => exact .bind q ihA ihs
  | beta A _ _ ihs iha =>
    exact (Congruence.app (.bind .lam (.refl A) ihs) iha).trans
      (.rule (Or.inl (Beta.contract _ _ _)))
  | eta _ A _ ih => exact (Congruence.rule (Or.inr (Eta.contract A _))).trans ih
  | reset _ A _ ih =>
    exact (convertible_lam_domain A .type _).trans (.bind .lam (.refl _) ih)
  | _ => exact .refl _

theorem convertible_of_many {s t : Nameless} (h : Parallel.Many True s t) :
    Convertible s t := by
  induction h with
  | refl => exact .refl s
  | tail _ hstep ih => exact ih.trans hstep.convertible

/-- **Church–Rosser.** Convertible terms have a common reduct. -/
theorem Convertible.join {s t : Nameless} (h : Convertible s t) :
    Relation.Join (Parallel.Many True) s t := by
  induction h with
  | rule h =>
    rcases h with ⟨A, s, a⟩ | ⟨A, t⟩
    · exact ⟨_, .single (.beta A (.refl s) (.refl a)), .refl⟩
    · exact ⟨_, .single (.eta trivial A (.refl _)), .refl⟩
  | refl t => exact ⟨t, .refl, .refl⟩
  | symm _ ih =>
    obtain ⟨d, hs, ht⟩ := ih
    exact ⟨d, ht, hs⟩
  | trans _ _ ih ih' =>
    obtain ⟨d, hs, ht⟩ := ih
    obtain ⟨e, ht', hu⟩ := ih'
    obtain ⟨c, hd, he⟩ := Parallel.confluent ht ht'
    exact ⟨c, hs.trans hd, hu.trans he⟩
  | app _ _ ihf iha =>
    obtain ⟨c, hf, hg⟩ := ihf
    obtain ⟨d, ha, hb⟩ := iha
    exact ⟨.app c d, hf.app ha, hg.app hb⟩
  | bind q _ _ ihA ihs =>
    obtain ⟨C, hA, hB⟩ := ihA
    obtain ⟨d, hs, ht⟩ := ihs
    exact ⟨.bind q C d, hA.bind q hs, hB.bind q ht⟩

/-- Products are convertible only if their domains and their codomains are. -/
theorem Convertible.pi_inj {A B A' B' : Nameless} (h : Convertible (.pi A B) (.pi A' B')) :
    Convertible A A' ∧ Convertible B B' := by
  obtain ⟨d, hl, hr⟩ := h.join
  obtain ⟨C, D, rfl, hA, hB⟩ := Parallel.many_pi hl
  obtain ⟨C', D', he, hA', hB'⟩ := Parallel.many_pi hr
  obtain ⟨_, rfl, rfl⟩ := Nameless.bind.inj he
  exact ⟨(convertible_of_many hA).trans (convertible_of_many hA').symm,
    (convertible_of_many hB).trans (convertible_of_many hB').symm⟩

/-- A product is not convertible to `Type`. -/
theorem not_convertible_pi_type {A B : Nameless} : ¬Convertible (.pi A B) .type := by
  intro h
  obtain ⟨d, hl, hr⟩ := h.join
  obtain ⟨C, D, rfl, _, _⟩ := Parallel.many_pi hl
  exact absurd (Parallel.many_type hr) (by simp)

end LogicalFramework
