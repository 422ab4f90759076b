import Mathlib.Data.Option.Basic
import Mathlib.Logic.Basic

/-!
# Tries whose nodes are installed on demand

A trie is an edge map from a node and a symbol to a child. A labelling assigns to every
node the path that leads to it, so two different paths never end in the same node. An
extension adds nodes and edges to them; what could be found before is found at the same
node after it.
-/

namespace Foundations

variable {ι β : Type}

/-- Follow a path from a node. -/
def descend (edge : ι → β → Option ι) : List β → ι → Option ι
  | [], a => some a
  | b :: path, a => (edge a b).bind (descend edge path)

/-- Every node is labelled with its path from the root. -/
structure Labelled (edge : ι → β → Option ι) (root : ι) (label : ι → List β) : Prop where
  root : label root = []
  step : ∀ a b c, edge a b = some c → label c = label a ++ [b]

/-- The second edge map adds nodes outside `old` to the first one. -/
structure Extends (old : ι → Prop) (edge edge' : ι → β → Option ι) : Prop where
  keep : ∀ a b c, edge a b = some c → edge' a b = some c
  fresh : ∀ a b c, edge' a b = some c → edge a b = some c ∨ ¬ old c
  closed : ∀ a b c, edge a b = some c → old a

variable {edge edge' : ι → β → Option ι} {root : ι} {label : ι → List β} {old : ι → Prop}

/-- The empty path ends where it begins. -/
@[simp] theorem descend_nil (a : ι) : descend edge [] a = some a := rfl

/-- A path goes along its first edge. -/
@[simp] theorem descend_cons (b : β) (path : List β) (a : ι) :
    descend edge (b :: path) a = (edge a b).bind (descend edge path) := rfl

/-- A path in two parts is followed part by part. -/
theorem descend_append (left right : List β) (a : ι) :
    descend edge (left ++ right) a = (descend edge left a).bind (descend edge right) := by
  induction left generalizing a with
  | nil => rfl
  | cons b left ih =>
    simp only [List.cons_append, descend_cons, Option.bind_assoc]
    congr
    funext c
    exact ih c

/-- The label of a node grows by the path followed from it. -/
theorem Labelled.label_descend (h : Labelled edge root label) (path : List β) (a c : ι)
    (hpath : descend edge path a = some c) : label c = label a ++ path := by
  induction path generalizing a with
  | nil =>
    obtain rfl : a = c := Option.some.inj hpath
    simp
  | cons b path ih =>
    obtain ⟨child, hedge, hrest⟩ := Option.bind_eq_some_iff.mp hpath
    rw [ih child hrest, h.step a b child hedge, List.append_assoc, List.singleton_append]

/-- Different paths from the root end in different nodes. -/
theorem Labelled.descend_injective (h : Labelled edge root label) {left right : List β} {c : ι}
    (hleft : descend edge left root = some c) (hright : descend edge right root = some c) :
    left = right := by
  have hlabel := (h.label_descend left root c hleft).symm.trans (h.label_descend right root c hright)
  simpa only [h.root, List.nil_append] using hlabel

/-- What is found before an extension is found after it. -/
theorem Extends.descend_keep (h : Extends old edge edge') (path : List β) (a c : ι)
    (hpath : descend edge path a = some c) : descend edge' path a = some c := by
  induction path generalizing a with
  | nil => exact hpath
  | cons b path ih =>
    obtain ⟨child, hedge, hrest⟩ := Option.bind_eq_some_iff.mp hpath
    exact Option.bind_eq_some_iff.mpr ⟨child, h.keep a b child hedge, ih child hrest⟩

/-- A path from a new node ends in a new node. -/
theorem Extends.descend_new (h : Extends old edge edge') (path : List β) (a c : ι) (ha : ¬ old a)
    (hpath : descend edge' path a = some c) : ¬ old c := by
  induction path generalizing a with
  | nil =>
    obtain rfl : a = c := Option.some.inj hpath
    exact ha
  | cons b path ih =>
    obtain ⟨child, hedge, hrest⟩ := Option.bind_eq_some_iff.mp hpath
    rcases h.fresh a b child hedge with hbefore | hnew
    · exact absurd (h.closed a b child hbefore) ha
    · exact ih child hnew hrest

/-- What is found after an extension was found before it or is a new node. -/
theorem Extends.descend_fresh (h : Extends old edge edge') (path : List β) (a c : ι)
    (hpath : descend edge' path a = some c) : descend edge path a = some c ∨ ¬ old c := by
  induction path generalizing a with
  | nil => exact Or.inl hpath
  | cons b path ih =>
    obtain ⟨child, hedge, hrest⟩ := Option.bind_eq_some_iff.mp hpath
    rcases h.fresh a b child hedge with hbefore | hnew
    · rcases ih child hrest with hfound | hnew
      · exact Or.inl (Option.bind_eq_some_iff.mpr ⟨child, hbefore, hfound⟩)
      · exact Or.inr hnew
    · exact Or.inr (h.descend_new path child c hnew hrest)

end Foundations
