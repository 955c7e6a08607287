import Simmis.Library.Checks
import Simmis.Library.Substitutions

/-!
# Local rewrites

A computation that rewrites a text is local to a range if it neither reads nor changes what follows
the range and keeps what precedes it. Local rewrites of ranges in order make a local rewrite.
-/

namespace Simmis.LocalRewrites

open List Substitutions Except

variable {ε : Type*} {α : Type} {f g : List α → Except ε (List α)} {low high low' high' : ℕ}

structure Local (low high : ℕ) (f : List α → Except ε (List α)) : Prop where
  ordered : low ≤ high
  append : ∀ text post, high ≤ text.length → f (text ++ post) = (· ++ post) <$> f text
  keeps : ∀ text result, high ≤ text.length → f text = .ok result →
    result.take low = text.take low ∧ low ≤ result.length

theorem Local.pure (h : low ≤ high) : Local low high (ok : List α → Except ε (List α)) where
  ordered := h
  append := fun _ _ _ ↦ rfl
  keeps := fun text result hhigh hresult ↦ by
    obtain rfl := ok.inj hresult
    exact ⟨rfl, h.trans hhigh⟩

/-- The later range is rewritten first. -/
theorem Local.bind (hg : Local low' high' g) (hf : Local low high f) (h : high ≤ low') :
    Local low high' fun text ↦ g text >>= f where
  ordered := hf.ordered.trans (h.trans hg.ordered)
  append := fun text post hhigh ↦ by
    rw [hg.append text post hhigh]
    cases hresult : g text with
    | error e => rfl
    | ok result =>
      have hlength := (hg.keeps text result hhigh hresult).2
      exact hf.append result post (h.trans hlength)
  keeps := fun text result hhigh hresult ↦ by
    obtain ⟨middle, hmiddle, hresult⟩ := bind_eq_ok.mp hresult
    obtain ⟨htake, hlength⟩ := hg.keeps text middle hhigh hmiddle
    obtain ⟨hfirst, hle⟩ := hf.keeps middle result (h.trans hlength) hresult
    have hfront : middle.take low = text.take low := by
      have hmin := congrArg (take low) htake
      rwa [take_take, take_take, Nat.min_eq_left (hf.ordered.trans h)] at hmin
    exact ⟨hfirst.trans hfront, hle⟩

theorem Local.widen (hf : Local low' high' f) (hlow : low ≤ low') (hhigh : high' ≤ high) :
    Local low high f where
  ordered := hlow.trans (hf.ordered.trans hhigh)
  append := fun text post hlength ↦ hf.append text post (hhigh.trans hlength)
  keeps := fun text result hlength hresult ↦ by
    obtain ⟨htake, hle⟩ := hf.keeps text result (hhigh.trans hlength) hresult
    have hmin := congrArg (take low) htake
    rw [take_take, take_take, Nat.min_eq_left hlow] at hmin
    exact ⟨hmin, hlow.trans hle⟩

/-- The rewrites of ranges in order, from the last to the first. -/
theorem Local.foldrM {β : Type} {step : β → List α → Except ε (List α)} {start stop : β → ℕ}
    {items : List β} (hstep : ∀ item ∈ items, Local (start item) (stop item) (step item))
    (hbounds : ∀ item ∈ items, low ≤ start item ∧ stop item ≤ high) (hle : low ≤ high)
    (hordered : items.Pairwise fun a b ↦ stop a ≤ start b) :
    Local low high fun text ↦ items.foldrM step text := by
  induction items generalizing low with
  | nil => exact .pure hle
  | cons item items ih =>
    obtain ⟨hitem, hstep⟩ := forall_mem_cons.mp hstep
    obtain ⟨hbound, hbounds⟩ := forall_mem_cons.mp hbounds
    obtain ⟨hfirst, hordered⟩ := pairwise_cons.mp hordered
    have hlater := ih hstep (fun b hb ↦ ⟨hfirst b hb, (hbounds b hb).2⟩) hbound.2 hordered
    simp only [foldrM_cons]
    exact (hlater.bind hitem le_rfl).widen hbound.1 le_rfl

theorem Local.error (h : low ≤ high) (e : ε) :
    Local low high fun _ : List α ↦ (.error e : Except ε (List α)) where
  ordered := h
  append := fun _ _ _ ↦ rfl
  keeps := fun _ _ _ hresult ↦ nomatch hresult

/-- A computation in front that does not depend on the text. -/
theorem Local.const_bind {σ : Type} {c : Except ε σ} {step : σ → List α → Except ε (List α)}
    (h : low ≤ high) (hstep : ∀ x, c = .ok x → Local low high (step x)) :
    Local low high fun text ↦ c >>= fun x ↦ step x text := by
  cases hc : c with
  | error e => exact .error h e
  | ok x => exact hstep x hc

/-- A rewrite may depend on what it reads of the range. -/
theorem Local.reading {σ : Type} (read : List α → σ) (step : σ → List α → Except ε (List α))
    (hread : ∀ text post, high ≤ text.length → read (text ++ post) = read text)
    (hstep : ∀ x, Local low high (step x)) (h : low ≤ high) :
    Local low high fun text ↦ step (read text) text where
  ordered := h
  append := fun text post hhigh ↦ by
    rw [hread text post hhigh]
    exact (hstep (read text)).append text post hhigh
  keeps := fun text result hhigh hresult ↦ (hstep (read text)).keeps text result hhigh hresult

theorem slice_append {text post : List α} (h : high ≤ text.length) :
    ((text ++ post).drop low).take (high - low) = (text.drop low).take (high - low) := by
  rcases Nat.le_total low high with hle | hle
  · rw [drop_append_of_le_length (hle.trans h),
      take_append_of_le_length (by rw [length_drop]; omega)]
  · rw [Nat.sub_eq_zero_of_le hle, take_zero, take_zero]

/-- The replacement of a range by what is computed from it. -/
theorem Local.of_slice (replacement : List α → Except ε (List α)) (h : low ≤ high)
    (hf : ∀ text, high ≤ text.length → f text =
      (fun r ↦ splice text ⟨low, high, r⟩) <$> replacement ((text.drop low).take (high - low))) :
    Local low high f where
  ordered := h
  append := fun text post hhigh ↦ by
    have hlonger : high ≤ (text ++ post).length := by
      rw [length_append]
      omega
    rw [hf text hhigh, hf _ hlonger, slice_append hhigh]
    cases replacement ((text.drop low).take (high - low)) with
    | error e => rfl
    | ok r =>
      have hsplice : splice (text ++ post) ⟨low, high, r⟩ = splice text ⟨low, high, r⟩ ++ post := by
        simp only [splice]
        rw [take_append_of_le_length (h.trans hhigh), drop_append_of_le_length hhigh,
          append_assoc, append_assoc, append_assoc]
      exact congrArg ok hsplice
  keeps := fun text result hhigh hresult ↦ by
    rw [hf text hhigh] at hresult
    obtain ⟨r, -, rfl⟩ := map_eq_ok.mp hresult
    have hlength : (text.take low).length = low := length_take_of_le (h.trans hhigh)
    simp only [splice, append_assoc]
    refine ⟨take_left' hlength, ?_⟩
    rw [length_append, hlength]
    omega

/-- What a local rewrite puts in the place of its range. -/
def body (low high : ℕ) (f : List α → Except ε (List α)) (text : List α) : Except ε (List α) :=
  List.drop low <$> f (text.take high)

/-- A local rewrite replaces its range. -/
theorem Local.eq_splice (hf : Local low high f) {text : List α} (hlength : high ≤ text.length) :
    f text = (fun replacement ↦ splice text ⟨low, high, replacement⟩) <$> body low high f text := by
  have htake : (text.take high).length = high := length_take_of_le hlength
  have happend := hf.append (text.take high) (text.drop high) htake.ge
  rw [take_append_drop] at happend
  rw [happend, body]
  cases hresult : f (text.take high) with
  | error e => rfl
  | ok result =>
    obtain ⟨hkeep, -⟩ := hf.keeps _ _ htake.ge hresult
    rw [take_take, Nat.min_eq_left hf.ordered] at hkeep
    have hsplit : result = text.take low ++ result.drop low := by
      rw [← hkeep, take_append_drop]
    calc
      (· ++ text.drop high) <$> (ok result : Except ε (List α)) =
          .ok (result ++ text.drop high) := rfl
      _ = .ok (text.take low ++ result.drop low ++ text.drop high) := by rw [← hsplit]

/-- Texts that agree up to the end of the range are rewritten in the same way. -/
theorem body_congr {text other : List α} (h : text.take high = other.take high) :
    body low high f text = body low high f other := by
  rw [body, h, body]

end Simmis.LocalRewrites
