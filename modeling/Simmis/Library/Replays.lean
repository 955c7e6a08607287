import Simmis.Library.Checks
import Mathlib.Data.List.Perm.Basic

/-!
# Replayed computations

One checked computation replays another if it returns what the other returns. A fold replays another
as soon as each of its steps does.
-/

namespace Simmis

open List

variable {ε α σ : Type}

/-- Whatever `x` returns, `y` returns as well. -/
def Replays (x y : Except ε α) : Prop := ∀ a, x = .ok a → y = .ok a

variable {β : Type} {l : List α} {bs : List β} {f : α → Except ε β}

variable {a : α}

theorem mapM_cons_eq_ok :
    (a :: l).mapM f = .ok bs ↔ ∃ b rest, f a = .ok b ∧ l.mapM f = .ok rest ∧ bs = b :: rest := by
  rw [mapM_cons, bind_eq_ok]
  constructor
  · rintro ⟨b, hb, h⟩
    obtain ⟨rest, hrest, h⟩ := bind_eq_ok.mp h
    cases h
    exact ⟨b, rest, hb, hrest, rfl⟩
  · rintro ⟨b, rest, hb, hrest, rfl⟩
    exact ⟨b, hb, bind_eq_ok.mpr ⟨rest, hrest, rfl⟩⟩

/-- Nothing is collected if and only if every element adds nothing. -/
theorem mapM_flatten_eq_nil {f : α → Except ε (List β)} :
    (∃ bss, l.mapM f = .ok bss ∧ bss.flatten = []) ↔ ∀ a ∈ l, f a = .ok [] := by
  induction l with
  | nil => simp [pure, Except.pure]
  | cons a l ih =>
    rw [forall_mem_cons, ← ih]
    constructor
    · rintro ⟨bss, h, hnil⟩
      obtain ⟨b, rest, ha, hrest, rfl⟩ := mapM_cons_eq_ok.mp h
      obtain ⟨rfl, hnil⟩ : b = [] ∧ rest.flatten = [] := by simpa using hnil
      exact ⟨ha, rest, hrest, hnil⟩
    · rintro ⟨ha, rest, hrest, hnil⟩
      exact ⟨[] :: rest, mapM_cons_eq_ok.mpr ⟨[], rest, ha, hrest, rfl⟩, by simpa using hnil⟩

/-- Each result is what the computation returns on some element. -/
theorem of_mem_mapM (h : l.mapM f = .ok bs) {b : β} (hb : b ∈ bs) : ∃ a ∈ l, f a = .ok b := by
  induction l generalizing bs with
  | nil => cases h; cases hb
  | cons a l ih =>
    obtain ⟨b', rest, ha, hrest, rfl⟩ := mapM_cons_eq_ok.mp h
    obtain rfl | hlater := mem_cons.mp hb
    · exact ⟨a, mem_cons_self .., ha⟩
    · obtain ⟨a', hmem, ha'⟩ := ih hrest hlater
      exact ⟨a', mem_cons_of_mem _ hmem, ha'⟩

/-- Each element has its result. -/
theorem mem_mapM (h : l.mapM f = .ok bs) (ha : a ∈ l) : ∃ b ∈ bs, f a = .ok b := by
  induction l generalizing bs with
  | nil => cases ha
  | cons a' l ih =>
    obtain ⟨b', rest, ha', hrest, rfl⟩ := mapM_cons_eq_ok.mp h
    obtain rfl | hlater := mem_cons.mp ha
    · exact ⟨b', mem_cons_self .., ha'⟩
    · obtain ⟨b, hmem, hb⟩ := ih hrest hlater
      exact ⟨b, mem_cons_of_mem _ hmem, hb⟩

/-- Computations that return `g`, each under its condition, return a list of it. -/
theorem mapM_eq_ok {p : α → Prop} {g : α → β} (hf : ∀ a b, f a = .ok b ↔ p a ∧ b = g a) :
    l.mapM f = .ok bs ↔ (∀ a ∈ l, p a) ∧ bs = l.map g := by
  induction l generalizing bs with
  | nil => simp [pure, Except.pure, eq_comm]
  | cons a l ih =>
    rw [mapM_cons_eq_ok]
    constructor
    · rintro ⟨b, rest, hb, hrest, rfl⟩
      obtain ⟨ha, rfl⟩ := (hf a b).mp hb
      obtain ⟨hl, rfl⟩ := ih.mp hrest
      exact ⟨forall_mem_cons.mpr ⟨ha, hl⟩, rfl⟩
    · rintro ⟨hall, rfl⟩
      obtain ⟨ha, hl⟩ := forall_mem_cons.mp hall
      exact ⟨g a, l.map g, (hf a _).mpr ⟨ha, rfl⟩, ih.mpr ⟨hl, rfl⟩, rfl⟩

/-- Computations that return `g` if they return anything return a list of it. -/
theorem eq_map_of_mapM {g : α → β} (hf : ∀ a b, f a = .ok b → b = g a) (h : l.mapM f = .ok bs) :
    bs = l.map g := by
  induction l generalizing bs with
  | nil =>
    cases h
    rfl
  | cons a l ih =>
    obtain ⟨b, rest, hb, hrest, rfl⟩ := mapM_cons_eq_ok.mp h
    rw [hf a b hb, ih hrest, map_cons]

theorem mapM_replays {g : α → Except ε β} (hfg : ∀ a ∈ l, ∀ b ∈ bs, f a = .ok b → g a = .ok b)
    (h : l.mapM f = .ok bs) : l.mapM g = .ok bs := by
  induction l generalizing bs with
  | nil => exact h
  | cons a l ih =>
    obtain ⟨b, rest, hb, hrest, rfl⟩ := mapM_cons_eq_ok.mp h
    have hsame : g a = .ok b := hfg a (mem_cons_self ..) b (mem_cons_self ..) hb
    refine mapM_cons_eq_ok.mpr ⟨b, rest, hsame, ih (fun a' ha' b' hb' ↦ ?_) hrest, rfl⟩
    exact hfg a' (mem_cons_of_mem _ ha') b' (mem_cons_of_mem _ hb')

theorem forM_eq_ok {f : α → Except ε Unit} {u : Unit} :
    l.forM f = .ok u ↔ ∀ a ∈ l, f a = .ok () := by
  induction l with
  | nil => exact ⟨fun _ _ h ↦ (not_mem_nil h).elim, fun _ ↦ rfl⟩
  | cons a l ih =>
    change (f a >>= fun _ ↦ l.forM f) = .ok u ↔ _
    rw [bind_eq_ok, Unique.exists_iff, ih, forall_mem_cons]

/-- Every error of `x` satisfies `p`. -/
def Throws (p : ε → Prop) (x : Except ε α) : Prop := ∀ e, x = .error e → p e

variable {p : ε → Prop}

theorem Throws.ok (a : α) : Throws p (.ok a : Except ε α) := fun _ h ↦ nomatch h

variable {e : ε}

theorem Throws.error (he : p e) : Throws p (.error e : Except ε α) := by
  intro e' h
  cases h
  exact he

theorem Throws.require {q : Prop} [Decidable q] (he : p e) : Throws p (require q e) := by
  unfold Simmis.require
  split
  · exact .ok _
  · exact .error he

theorem Throws.demand {o : Option α} (he : p e) : Throws p (demand o e) := by
  cases o with
  | some a => exact .ok a
  | none => exact .error he

theorem Throws.bind {x : Except ε σ} {f : σ → Except ε α} (hx : Throws p x)
    (hf : ∀ s, x = .ok s → Throws p (f s)) : Throws p (x >>= f) := by
  intro e h
  cases hxs : x with
  | error e' =>
    rw [hxs] at h
    cases h
    exact hx _ hxs
  | ok s =>
    rw [hxs] at h
    exact hf s hxs e h

theorem Throws.mapM (hf : ∀ a, Throws p (f a)) (l : List α) : Throws p (l.mapM f) := by
  induction l with
  | nil => exact .ok _
  | cons a l ih =>
    rw [mapM_cons]
    exact .bind (hf a) fun _ _ ↦ .bind ih fun _ _ ↦ .ok _

theorem Throws.forM {f : α → Except ε Unit} (hf : ∀ a, Throws p (f a)) (l : List α) :
    Throws p (l.forM f) := by
  induction l with
  | nil => exact .ok _
  | cons a l ih =>
    change Throws p (f a >>= fun _ ↦ l.forM f)
    exact .bind (hf a) fun _ _ ↦ ih

variable {f : σ → α → Except ε σ} {s : σ}

variable {t : σ}

theorem foldlM_cons_eq_ok :
    (a :: l).foldlM f s = .ok t ↔ ∃ u, f s a = .ok u ∧ l.foldlM f u = .ok t := by
  rw [foldlM_cons, bind_eq_ok]

theorem foldlM_congr {g : σ → α → Except ε σ} (h : ∀ a ∈ l, ∀ s, f s a = g s a) (s : σ) :
    l.foldlM f s = l.foldlM g s := by
  induction l generalizing s with
  | nil => rfl
  | cons a l ih =>
    have hrest (t : σ) : l.foldlM f t = l.foldlM g t := ih (fun b hb ↦ h b (mem_cons_of_mem _ hb)) t
    rw [foldlM_cons, foldlM_cons, h a (mem_cons_self ..)]
    exact congrArg _ (funext hrest)

/-- What every step keeps, a fold keeps. -/
theorem foldlM_keeps {p : σ → Prop} (hstep : ∀ a ∈ l, ∀ s t, p s → f s a = .ok t → p t)
    (hs : p s) (ht : l.foldlM f s = .ok t) : p t := by
  induction l generalizing s with
  | nil => cases ht; exact hs
  | cons a l ih =>
    obtain ⟨u, hu, hrest⟩ := foldlM_cons_eq_ok.mp ht
    have hkept : p u := hstep a (mem_cons_self ..) s u hs hu
    exact ih (fun b hb ↦ hstep b (mem_cons_of_mem _ hb)) hkept hrest

/-- What every step has checked of its element. -/
theorem foldlM_each {p : α → Prop} (hstep : ∀ a ∈ l, ∀ s t, f s a = .ok t → p a)
    (ht : l.foldlM f s = .ok t) : ∀ a ∈ l, p a := by
  induction l generalizing s with
  | nil => exact fun _ ha ↦ absurd ha not_mem_nil
  | cons a l ih =>
    obtain ⟨u, hu, hrest⟩ := foldlM_cons_eq_ok.mp ht
    refine forall_mem_cons.mpr ⟨hstep a (mem_cons_self ..) s u hu, ?_⟩
    exact ih (fun b hb ↦ hstep b (mem_cons_of_mem _ hb)) hrest

/-- A fold that keeps account: `g` is what each step adds. -/
theorem foldlM_accounts {δ : Type} (g : α → List δ) (inv : List δ → σ → Prop)
    (hstep : ∀ a ∈ l, ∀ done s t, inv done s → f s a = .ok t → inv (done ++ g a) t) {done : List δ}
    (hs : inv done s) (ht : l.foldlM f s = .ok t) : inv (done ++ l.flatMap g) t := by
  induction l generalizing done s with
  | nil =>
    cases ht
    simpa using hs
  | cons a l ih =>
    obtain ⟨u, hu, hrest⟩ := foldlM_cons_eq_ok.mp ht
    have hnext : inv (done ++ g a) u := hstep a (mem_cons_self ..) done s u hs hu
    have hlast := ih (fun b hb ↦ hstep b (mem_cons_of_mem _ hb)) hnext hrest
    rwa [append_assoc] at hlast

/-- What every step at most adds to, a fold adds to. -/
theorem foldlM_climbs (le : σ → σ → Prop) (hrefl : ∀ s, le s s)
    (htrans : ∀ s t u, le s t → le t u → le s u) (hstep : ∀ a ∈ l, ∀ s t, f s a = .ok t → le s t)
    (ht : l.foldlM f s = .ok t) :
    le s t :=
  foldlM_keeps (p := le s) (fun a ha u v hu hv ↦ htrans s u v hu (hstep a ha u v hv)) (hrefl s) ht

/-- A fold whose steps climb is replayed if each step is that ends below the result. -/
theorem foldlM_replays (le : σ → σ → Prop) {g : σ → α → Except ε σ} (hrefl : ∀ s, le s s)
    (htrans : ∀ s t u, le s t → le t u → le s u) (hclimb : ∀ a ∈ l, ∀ s t, f s a = .ok t → le s t)
    {last : σ} (hstep : ∀ a ∈ l, ∀ s t, f s a = .ok t → le t last → g s a = .ok t)
    (ht : l.foldlM f s = .ok last) : l.foldlM g s = .ok last := by
  induction l generalizing s with
  | nil => exact ht
  | cons a l ih =>
    have hmem (b : α) (hb : b ∈ l) : b ∈ a :: l := mem_cons_of_mem _ hb
    obtain ⟨u, hu, hrest⟩ := foldlM_cons_eq_ok.mp ht
    have hle : le u last := foldlM_climbs le hrefl htrans (fun b hb ↦ hclimb b (hmem b hb)) hrest
    have hsame : g s a = .ok u := hstep a (mem_cons_self ..) s u hu hle
    refine foldlM_cons_eq_ok.mpr ⟨u, hsame, ?_⟩
    exact ih (fun b hb ↦ hclimb b (hmem b hb)) (fun b hb ↦ hstep b (hmem b hb)) hrest

/-- The order does not matter if two elements can change places. -/
theorem foldlM_perm
    (hswap : ∀ a b s u t, f s a = .ok u → f u b = .ok t → ∃ v, f s b = .ok v ∧ f v a = .ok t)
    {l' : List α} (hperm : l.Perm l') (h : l.foldlM f s = .ok t) : l'.foldlM f s = .ok t := by
  induction hperm generalizing s with
  | nil => exact h
  | cons a _ ih =>
    obtain ⟨u, hu, hrest⟩ := foldlM_cons_eq_ok.mp h
    exact foldlM_cons_eq_ok.mpr ⟨u, hu, ih hrest⟩
  | swap a b l =>
    obtain ⟨u, hu, hrest⟩ := foldlM_cons_eq_ok.mp h
    obtain ⟨w, hw, hrest⟩ := foldlM_cons_eq_ok.mp hrest
    obtain ⟨v, hv, hvw⟩ := hswap b a s u w hu hw
    exact foldlM_cons_eq_ok.mpr ⟨v, hv, foldlM_cons_eq_ok.mpr ⟨w, hvw, hrest⟩⟩
  | trans _ _ ih₁ ih₂ => exact ih₂ (ih₁ h)

/-- A change of the state that every step carries along is carried along by a fold. -/
theorem foldlM_carries {g : σ → σ} (hstep : ∀ a s t, f s a = .ok t → f (g s) a = .ok (g t))
    (h : l.foldlM f s = .ok t) : l.foldlM f (g s) = .ok (g t) := by
  induction l generalizing s with
  | nil =>
    cases h
    rfl
  | cons a l ih =>
    obtain ⟨u, hu, hrest⟩ := foldlM_cons_eq_ok.mp h
    exact foldlM_cons_eq_ok.mpr ⟨g u, hstep a s u hu, ih hrest⟩

end Simmis
