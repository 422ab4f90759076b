import Mathlib.Data.List.Chain
import Mathlib.Data.List.Nodup
import Mathlib.Logic.Function.Basic

/-!
# Circular doubly linked lists

A ring is a list of distinct members whose successor and predecessor maps link each
member to the next one, the last to the first. Only the order around the circle
matters: a ring read from any of its members is a ring. Insertion before the first
member and removal of any member are updates of two links of each direction.
-/

namespace Foundations

variable {ι : Type}

/-- `next` and `prev` link exactly these members in this order around a circle. -/
structure Ring (next prev : ι → ι) (members : List ι) : Prop where
  nodup : members.Nodup
  links : members.IsChain fun a b => next a = b ∧ prev b = a
  closed : ∀ last ∈ members.getLast?, ∀ first ∈ members.head?,
    next last = first ∧ prev first = last

namespace Ring

variable {next prev : ι → ι} {members : List ι}

/-- No member, no link. -/
theorem nil : Ring next prev [] :=
  ⟨List.nodup_nil, List.isChain_nil, by simp⟩

/-- A single member is its own neighbour. -/
theorem singleton {a : ι} (hnext : next a = a) (hprev : prev a = a) : Ring next prev [a] :=
  ⟨List.nodup_singleton a, List.isChain_singleton a, by simp [hnext, hprev]⟩

/-- A ring may be read from any of its members. -/
theorem rotate {left right : List ι} (h : Ring next prev (left ++ right)) :
    Ring next prev (right ++ left) := by
  cases left with
  | nil => simpa using h
  | cons a left =>
    cases right with
    | nil => simpa using h
    | cons b right =>
      obtain ⟨hleft, hright, hjoin⟩ := List.isChain_append.mp h.links
      refine ⟨List.nodup_append_comm.mp h.nodup, ?_, ?_⟩
      · refine List.isChain_append.mpr ⟨hright, hleft, fun last hlast first hfirst => ?_⟩
        exact h.closed last (by rwa [List.getLast?_append_of_ne_nil _ (List.cons_ne_nil b right)])
          first (by simpa using hfirst)
      · intro last hlast first hfirst
        rw [List.getLast?_append_of_ne_nil _ (List.cons_ne_nil a left)] at hlast
        exact hjoin last hlast first (by simpa using hfirst)

/-- Read a ring from a given member. -/
theorem exists_rotate {a : ι} (h : Ring next prev members) (ha : a ∈ members) :
    ∃ before after, members = before ++ a :: after ∧ Ring next prev (a :: (after ++ before)) := by
  obtain ⟨before, after, rfl⟩ := List.append_of_mem ha
  exact ⟨before, after, rfl, by simpa using h.rotate⟩

/-- The neighbours of a member are members. -/
theorem neighbours_mem {a : ι} (h : Ring next prev members) (ha : a ∈ members) :
    next a ∈ members ∧ prev a ∈ members := by
  obtain ⟨before, after, rfl, hring⟩ := h.exists_rotate ha
  have hmem : ∀ b, b ∈ a :: (after ++ before) → b ∈ before ++ a :: after := by
    intro b hb
    simp only [List.mem_cons, List.mem_append] at hb ⊢
    tauto
  cases hrest : after ++ before with
  | nil =>
    rw [hrest] at hring
    obtain ⟨hnext, hprev⟩ := hring.closed a rfl a rfl
    rw [hnext, hprev]
    exact ⟨ha, ha⟩
  | cons b rest =>
    rw [hrest] at hring hmem
    have hnext : next a = b := (List.isChain_cons_cons.mp hring.links).1.1
    obtain ⟨last, hlast⟩ : ∃ last, (a :: b :: rest).getLast? = some last :=
      ⟨_, List.getLast?_eq_some_getLast (List.cons_ne_nil a _)⟩
    have hprev : prev a = last := (hring.closed last hlast a rfl).2
    rw [hnext, hprev]
    exact ⟨hmem b (by simp), hmem last (List.mem_of_getLast? hlast)⟩

/-- The predecessor map inverts the successor map on the members. -/
theorem prev_next {a : ι} (h : Ring next prev members) (ha : a ∈ members) : prev (next a) = a := by
  obtain ⟨before, after, rfl, hring⟩ := h.exists_rotate ha
  cases hrest : after ++ before with
  | nil =>
    rw [hrest] at hring
    obtain ⟨hnext, hprev⟩ := hring.closed a rfl a rfl
    rw [hnext, hprev]
  | cons b rest =>
    rw [hrest] at hring
    obtain ⟨hnext, hprev⟩ := (List.isChain_cons_cons.mp hring.links).1
    rw [hnext, hprev]

/-- The successor map inverts the predecessor map on the members. -/
theorem next_prev {a : ι} (h : Ring next prev members) (ha : a ∈ members) : next (prev a) = a := by
  obtain ⟨before, after, rfl, hring⟩ := h.exists_rotate ha
  have hlast := List.getLast?_eq_some_getLast (List.cons_ne_nil a (after ++ before))
  obtain ⟨hnext, hprev⟩ := hring.closed _ hlast a rfl
  rw [hprev, hnext]

/-- The links between two members that follow each other. -/
theorem consecutive {a b : ι} (before : List ι) {after : List ι}
    (h : Ring next prev (before ++ a :: b :: after)) :
    next a = b ∧ prev b = a :=
  (List.isChain_cons_cons.mp (List.isChain_append.mp h.links).2.1).1

/-- The successor of a member is another one, unless it is alone. -/
theorem next_mem_others {a : ι} {before after : List ι} (h : Ring next prev (before ++ a :: after))
    (hrest : before ++ after ≠ []) : next a ∈ before ++ after := by
  have hring : Ring next prev (a :: (after ++ before)) := by simpa using h.rotate
  cases hothers : after ++ before with
  | nil =>
    rw [List.append_eq_nil_iff] at hothers
    exact absurd (by rw [hothers.1, hothers.2, List.nil_append]) hrest
  | cons b rest =>
    rw [hothers] at hring
    have hmem : b ∈ after ++ before := by rw [hothers]; exact List.mem_cons_self
    rw [(consecutive [] hring).1]
    exact List.mem_append.mpr (List.mem_append.mp hmem).symm

/-- A link that leaves the links between the members alone leaves the ring alone. -/
theorem congr {next' prev' : ι → ι} (h : Ring next prev members)
    (hnext : ∀ a ∈ members, next' a = next a) (hprev : ∀ a ∈ members, prev' a = prev a) :
    Ring next' prev' members := by
  refine ⟨h.nodup, h.links.imp_of_mem_imp fun a b ha hb hab => ?_, fun last hlast first hfirst => ?_⟩
  · rw [hnext a ha, hprev b hb]
    exact hab
  · rw [hnext last (List.mem_of_getLast? hlast), hprev first (List.mem_of_head? hfirst)]
    exact h.closed last hlast first hfirst

/-- Following `next` from the first member visits the members in order. -/
theorem iterate_eq {a : ι} {rest : List ι} (h : Ring next prev (a :: rest)) :
    List.iterate next a (a :: rest).length = a :: rest := by
  have hwalk : ∀ (rest : List ι) (a : ι),
      (a :: rest).IsChain (fun a b => next a = b ∧ prev b = a) →
        List.iterate next a (a :: rest).length = a :: rest := by
    intro rest
    induction rest with
    | nil => exact fun _ _ => rfl
    | cons b rest ih =>
      intro a hlinks
      obtain ⟨⟨hnext, -⟩, hrest⟩ := List.isChain_cons_cons.mp hlinks
      rw [List.length_cons, List.iterate, hnext, ih b hrest]
  exact hwalk rest a h.links

variable [DecidableEq ι]

/-- Link a new member between the last and the first. -/
theorem append {first last new : ι} (h : Ring next prev members)
    (hfirst : members.head? = some first) (hlast : members.getLast? = some last)
    (hnew : new ∉ members) :
    Ring (Function.update (Function.update next last new) new first)
      (Function.update (Function.update prev first new) new last) (members ++ [new]) := by
  obtain ⟨hlastNext, -⟩ := h.closed last hlast first hfirst
  have hlastMem : last ∈ members := List.mem_of_getLast? hlast
  have hfirstMem : first ∈ members := List.mem_of_head? hfirst
  have hlastNe : last ≠ new := fun heq => hnew (heq ▸ hlastMem)
  have hfirstNe : first ≠ new := fun heq => hnew (heq ▸ hfirstMem)
  refine ⟨?_, ?_, ?_⟩
  · rw [List.nodup_append_comm]
    exact List.nodup_cons.mpr ⟨hnew, h.nodup⟩
  · refine List.isChain_append.mpr ⟨?_, List.isChain_singleton new, ?_⟩
    · refine h.links.imp_of_mem_tail_imp fun a b ha hb hab => ?_
      have hbMem : b ∈ members := List.mem_of_mem_tail hb
      have hbFirst : b ≠ first := by
        obtain ⟨tail, rfl⟩ : ∃ tail, members = first :: tail :=
          ⟨members.tail, List.eq_cons_of_mem_head? hfirst⟩
        rintro rfl
        exact (List.nodup_cons.mp h.nodup).1 hb
      have haLast : a ≠ last := by
        rintro rfl
        exact hbFirst (hab.1.symm.trans hlastNext)
      have haNew : a ≠ new := fun heq => hnew (heq ▸ ha)
      have hbNew : b ≠ new := fun heq => hnew (heq ▸ hbMem)
      simpa [Function.update_apply, haLast, haNew, hbFirst, hbNew] using hab
    · intro x hx y hy
      obtain rfl : last = x := Option.some.inj (hlast.symm.trans hx)
      obtain rfl : new = y := by simpa using hy
      simp [hlastNe]
  · intro l hl f hf
    obtain rfl : new = l := by simpa using hl
    obtain rfl : first = f := by simpa [List.head?_append, hfirst] using hf
    simp [hfirstNe]

/-- Unlink a member by joining its neighbours. -/
theorem remove {a : ι} {before after : List ι} (h : Ring next prev (before ++ a :: after))
    (hrest : before ++ after ≠ []) :
    Ring (Function.update next (prev a) (next a)) (Function.update prev (next a) (prev a))
      (before ++ after) := by
  have hring : Ring next prev (a :: (after ++ before)) := by simpa using h.rotate
  refine rotate ?_
  generalize hothers : after ++ before = others at hring ⊢
  have hne : others ≠ [] := by
    rw [← hothers]
    intro hnil
    rw [List.append_eq_nil_iff] at hnil
    exact hrest (by rw [hnil.1, hnil.2, List.nil_append])
  obtain ⟨first, rest, rfl⟩ := List.exists_cons_of_ne_nil hne
  obtain ⟨last, hlast⟩ : ∃ last, (first :: rest).getLast? = some last :=
    ⟨_, List.getLast?_eq_some_getLast (List.cons_ne_nil first rest)⟩
  obtain ⟨⟨hnext, -⟩, hlinks⟩ := List.isChain_cons_cons.mp hring.links
  obtain ⟨hlastNext, hprev⟩ := hring.closed last (by rwa [List.getLast?_cons_cons]) a rfl
  obtain ⟨haNot, hnodup⟩ := List.nodup_cons.mp hring.nodup
  rw [hnext, hprev]
  refine ⟨hnodup, hlinks.imp_of_mem_tail_imp fun x y _ hy hxy => ?_, fun l hl f hf => ?_⟩
  · have hyFirst : y ≠ first := by
      rintro rfl
      exact (List.nodup_cons.mp hnodup).1 hy
    have hxLast : x ≠ last := by
      rintro rfl
      exact haNot ((hxy.1.symm.trans hlastNext) ▸ List.mem_cons_of_mem _ hy)
    simpa [Function.update_apply, hxLast, hyFirst] using hxy
  · obtain rfl : last = l := Option.some.inj (hlast.symm.trans hl)
    obtain rfl : first = f := by simpa using hf
    simp

end Ring

end Foundations
