import AmqpBroker.Verification.QueueSpine

/-!
# One access of the holder of the mutex

What each access to a queue does to the linked nodes, to the node that the thread has to
itself and to the strings in the queue. No access meets a NULL pointer or a freed node.
-/

namespace AmqpBroker

open Foundations

variable {d d' : QueueData} {point point' : QueuePoint} {ns ns' : List ℕ}
  {ms ms' : List (List UInt8)}

/-- The call does nothing yet, or takes effect. -/
def Serves (before after : Standing QueueOp QueueAnswer) (ms ms' : List (List UInt8)) : Prop :=
  after = before ∧ ms' = ms ∨
    ∃ op, before = .waiting op ∧ after = .served (serveQueue op ms).1 ∧ ms' = (serveQueue op ms).2

/-- The nodes that the holder of the mutex may touch. -/
structure Territory (nodes : Heap QNode) (point : QueuePoint) (ns : List ℕ) : Prop where
  live : ∀ a, a ∈ ns ∨ point.owned = some a → Live nodes a
  apart : ∀ a, point.owned = some a → a ∉ ns
  prepared : ∀ n body, point.prepared = some (n, body) →
    nodes.cells n = some { parent := none, length := body.length, body := body }

/-- An access by the holder of the mutex. -/
structure Advances (d : QueueData) (point : QueuePoint) (ns : List ℕ) (ms : List (List UInt8))
    (d' : QueueData) (point' : QueuePoint) (ns' : List ℕ) (ms' : List (List UInt8)) : Prop where
  fits : d'.Fits point' ns' ms'
  territory : Territory d'.nodes point' ns'
  kept : ∀ a, a ∉ ns → point.owned ≠ some a → d'.nodes.cells a = d.nodes.cells a
  old : ∀ a, a ∈ ns' ∨ point'.owned = some a → a ∈ ns ∨ point.owned = some a
  gone : ∀ a, a ∈ ns ∨ point.owned = some a → Live d'.nodes a → a ∈ ns' ∨ point'.owned = some a
  serves : Serves point.standing point'.standing ms ms'
  locked : point'.locked = true
  msgLocked : point'.msgLocked = false

/-- An access that leaves the nodes alone. -/
theorem advances_of_same (hterritory : Territory d.nodes point ns) (hnodes : d'.nodes = d.nodes)
    (howned : point'.owned = point.owned) (hprepared : point'.prepared = point.prepared)
    (hfits : d'.Fits point' ns ms') (hserves : Serves point.standing point'.standing ms ms')
    (hlocked : point'.locked = true) (hmsg : point'.msgLocked = false) :
    Advances d point ns ms d' point' ns ms' where
  fits := hfits
  territory := by
    rw [hnodes]
    refine ⟨fun a ha => ?_, fun a ha => ?_, fun n body hn => ?_⟩
    · exact hterritory.live a (howned ▸ ha)
    · exact hterritory.apart a (howned ▸ ha)
    · exact hterritory.prepared n body (hprepared ▸ hn)
  kept a _ _ := by rw [hnodes]
  old a ha := by rwa [howned] at ha
  gone a ha _ := by rwa [howned]
  serves := hserves
  locked := hlocked
  msgLocked := hmsg

/-- The prepared node becomes the newest one. -/
theorem advances_of_link {n : ℕ} (hterritory : Territory d.nodes point ns)
    (howned : point.owned = some n) (howned' : point'.owned = none)
    (hprepared' : point'.prepared = none)
    (hcells : ∀ a, a ∉ ns → d'.nodes.cells a = d.nodes.cells a)
    (hlive : ∀ a ∈ ns, Live d'.nodes a)
    (hfits : d'.Fits point' (ns ++ [n]) ms) (hstanding : point'.standing = point.standing)
    (hlocked : point'.locked = true) (hmsg : point'.msgLocked = false) :
    Advances d point ns ms d' point' (ns ++ [n]) ms where
  fits := hfits
  territory := by
    refine ⟨fun a ha => ?_, fun a ha => ?_, fun a body ha => ?_⟩
    · rw [howned', List.mem_append, List.mem_singleton] at ha
      obtain (ha | rfl) | ha := ha
      · exact hlive a ha
      · have hn := hterritory.live a (Or.inr howned)
        rwa [Live, hcells a (hterritory.apart a howned)]
      · cases ha
    · rw [howned'] at ha
      cases ha
    · rw [hprepared'] at ha
      cases ha
  kept a ha _ := hcells a ha
  old a ha := by
    rw [howned', List.mem_append, List.mem_singleton] at ha
    obtain (ha | rfl) | ha := ha
    · exact Or.inl ha
    · exact Or.inr howned
    · cases ha
  gone a ha _ := by
    rw [howned] at ha
    obtain ha | ha := ha
    · exact Or.inl (List.mem_append_left _ ha)
    · obtain rfl := Option.some.inj ha
      exact Or.inl (List.mem_append_right _ (List.mem_singleton.mpr rfl))
  serves := Or.inl ⟨hstanding, rfl⟩
  locked := hlocked
  msgLocked := hmsg

/-- What a pointer to a live node leads to. -/
theorem QueueData.deref_of_cell {n : ℕ} {node : QNode} (h : d.nodes.cells n = some node) :
    d.deref n = .ok node := by
  rw [QueueData.deref, h]

/-- The list has a newest node exactly when `first_node` is not NULL. -/
theorem QueueData.Ends.eq_nil (h : d.Ends ns ms) (hfirst : d.firstNode = none) :
    ns = [] ∧ ms = [] := by
  have hns : ns = [] := List.getLast?_eq_none_iff.mp (h.first.symm.trans hfirst)
  subst hns
  have hlength := h.spine.length_eq
  exact ⟨rfl, List.length_eq_zero_iff.mp hlength.symm⟩

/-- The prepared node is linked behind the newest one, or is the only one. -/
theorem access_link {body : List UInt8} {n : ℕ} (hterritory : Territory d.nodes point ns)
    (hprepared : point.prepared = some (n, body)) (howned : point.owned = some n)
    (hstanding : point.standing = .waiting (.qEnqueue body)) (hends : d.Ends ns ms)
    (hsize : d.size = ms.length) {nodes : Heap QNode}
    (hnodes : nodes = match d.firstNode with
      | none => d.nodes
      | some first => d.nodes.modify first fun node => { node with parent := some n }) :
    Advances d point ns ms { d with nodes := nodes } (.enqueueStoreFirst body n) (ns ++ [n]) ms := by
  have hcell := hterritory.prepared n body hprepared
  have hn := hterritory.apart n howned
  have hspine : Spine nodes (ns ++ [n]).head? (ns ++ [n]) (ms ++ [body]) := by
    cases hfirst : d.firstNode with
    | none =>
      rw [hfirst] at hnodes
      obtain ⟨rfl, rfl⟩ := hends.eq_nil hfirst
      exact hnodes ▸ Spine.singleton hcell rfl
    | some first =>
      rw [hfirst] at hnodes
      have hlast : ns.getLast? = some first := hends.first.symm.trans hfirst
      have happend := hends.spine.append hlast hcell rfl hn
      change nodes = d.nodes.modify first _ at hnodes
      rw [← hnodes] at happend
      rwa [happend.start_eq] at happend
  refine advances_of_link hterritory howned rfl rfl (fun a ha => ?_)
    (fun a ha => hspine.chain.live a (List.mem_append_left _ ha))
    ⟨hsize, ns, rfl, hspine, hends.spine.start_eq⟩ hstanding.symm rfl rfl
  change nodes.cells a = _
  cases hfirst : d.firstNode with
  | none => rw [hnodes, hfirst]
  | some first =>
    rw [hnodes, hfirst]
    refine Heap.modify_cells_ne _ _ fun heq => ha (heq ▸ ?_)
    exact List.mem_of_getLast? (hends.first.symm.trans hfirst)

/-- The oldest node is taken out of the list. -/
theorem access_unlink {last : ℕ} {body : List UInt8} {parent : Option ℕ}
    (hterritory : Territory d.nodes (.dequeueStoreLast last body parent) ns)
    (hfits : d.Fits (.dequeueStoreLast last body parent) ns ms) :
    ∃ rest, ns = last :: rest ∧ Advances d (.dequeueStoreLast last body parent) ns ms
      { d with lastNode := parent } (.dequeueFree last body) rest ms := by
  obtain ⟨hsize, hends, hlast, hbody, hparent⟩ := hfits
  have hspine := hends.spine
  rw [hlast] at hspine
  obtain ⟨node, rest, ms', hcell, rfl, rfl, hnot, hrest⟩ := hspine.uncons
  obtain rfl := Option.some.inj hbody
  rw [hcell] at hparent
  obtain rfl := Option.some.inj hparent
  refine ⟨rest, rfl, ⟨hsize, ms', rfl, hrest, hends.first, hnot⟩, ⟨fun a ha => ?_, fun a ha => ?_,
    fun n body hn => (by cases hn)⟩, fun a _ _ => rfl, fun a ha => ?_, fun a ha _ => ?_,
    Or.inl ⟨rfl, rfl⟩, rfl, rfl⟩
  · obtain ha | ha := ha
    · exact hterritory.live a (Or.inl (List.mem_cons_of_mem _ ha))
    · obtain rfl := Option.some.inj ha
      exact ⟨node, hcell⟩
  · obtain rfl := Option.some.inj ha
    exact hnot
  · obtain ha | ha := ha
    · exact Or.inl (List.mem_cons_of_mem _ ha)
    · obtain rfl := Option.some.inj ha
      exact Or.inl List.mem_cons_self
  · obtain ha | ha := ha
    · obtain rfl | ha := List.mem_cons.mp ha
      · exact Or.inr rfl
      · exact Or.inl ha
    · cases ha

/-- The node that was taken out is given back. -/
theorem access_free {last : ℕ} {body : List UInt8}
    (hterritory : Territory d.nodes (.dequeueFree last body) ns)
    (hfits : d.Fits (.dequeueFree last body) ns ms) :
    Advances d (.dequeueFree last body) ns ms { d with nodes := d.nodes.free last }
      (.dequeueTestFirst last body) ns ms := by
  obtain ⟨hsize, rest, rfl, hspine, hfirst, hnot⟩ := hfits
  have hne : ∀ a ∈ ns, a ≠ last := fun a ha heq => hnot (heq ▸ ha)
  refine ⟨⟨hsize, rest, rfl, hspine.congr fun a ha => Heap.free_cells_ne _ (hne a ha), hfirst, hnot⟩,
    ⟨fun a ha => ?_, fun a ha => (by cases ha), fun n body hn => (by cases hn)⟩, fun a _ ha => ?_,
    fun a ha => ?_, fun a ha hlive => ?_, Or.inl ⟨rfl, rfl⟩, rfl, rfl⟩
  · obtain ha | ha := ha
    · obtain ⟨node, hcell⟩ := hterritory.live a (Or.inl ha)
      exact ⟨node, (Heap.free_cells_ne _ (hne a ha)).trans hcell⟩
    · cases ha
  · exact Heap.free_cells_ne _ fun heq => ha (congrArg some heq.symm)
  · obtain ha | ha := ha
    · exact Or.inl ha
    · cases ha
  · obtain ha | ha := ha
    · exact Or.inl ha
    · obtain rfl := Option.some.inj ha
      obtain ⟨node, hcell⟩ := hlive
      simp [Heap.free_cells] at hcell

/-- Every access of the holder of the mutex succeeds and takes the queue on. -/
theorem access_advances (hterritory : Territory d.nodes point ns) (hfits : d.Fits point ns ms)
    (hguarded : point.guarded = true) : ∃ d' point' ns' ms', d.access point = .ok (d', point') ∧
      Advances d point ns ms d' point' ns' ms' := by
  obtain ⟨hsize, hshape⟩ := hfits
  have hstay : Serves point.standing point.standing ms ms := Or.inl ⟨rfl, rfl⟩
  cases point with
  | enqueueTestFirst body n =>
    by_cases hfirst : d.firstNode = none
    · refine ⟨d, _, ns ++ [n], ms, rfl, ?_⟩
      rw [if_neg (by simpa using hfirst)]
      exact access_link hterritory rfl rfl rfl hshape hsize (by rw [hfirst])
    · refine ⟨d, _, ns, ms, rfl, ?_⟩
      rw [if_pos hfirst]
      exact advances_of_same hterritory rfl rfl rfl ⟨hsize, hshape, hfirst⟩ hstay rfl rfl
  | enqueueLoadFirst body n =>
    obtain ⟨hends, hfirst⟩ := hshape
    obtain ⟨first, hsome⟩ := Option.ne_none_iff_exists'.mp hfirst
    refine ⟨d, .enqueueStoreParent body n first, ns, ms, by simp [QueueData.access, hsome], ?_⟩
    exact advances_of_same hterritory rfl rfl rfl ⟨hsize, hends, hsome⟩ hstay rfl rfl
  | enqueueStoreParent body n first =>
    obtain ⟨hends, hfirst⟩ := hshape
    obtain ⟨node, hcell⟩ := hterritory.live first
      (Or.inl (List.mem_of_getLast? (hends.first.symm.trans hfirst)))
    refine ⟨_, _, ns ++ [n], ms, by rw [QueueData.access, QueueData.deref_of_cell hcell]; rfl, ?_⟩
    exact access_link hterritory rfl rfl rfl hends hsize (by rw [hfirst])
  | enqueueStoreFirst body n =>
    obtain ⟨before, hns, hspine, hlast⟩ := hshape
    exact ⟨_, _, ns, ms, rfl, advances_of_same hterritory rfl rfl rfl
      ⟨hsize, before, hns, hspine, hlast, rfl⟩ hstay rfl rfl⟩
  | enqueueTestLast body n =>
    obtain ⟨before, rfl, hspine, hlast, hfirst⟩ := hshape
    refine ⟨d, _, before ++ [n], ms, rfl, ?_⟩
    cases before with
    | nil =>
      rw [if_pos (show d.lastNode = none from hlast)]
      exact advances_of_same hterritory rfl rfl rfl ⟨hsize, rfl, hspine, hfirst⟩ hstay rfl rfl
    | cons a before =>
      rw [if_neg (by simp [hlast])]
      refine advances_of_same hterritory rfl rfl rfl ⟨hsize, ?_, ?_⟩ hstay rfl rfl
      · rwa [hlast]
      · rw [hfirst, List.getLast?_append_of_ne_nil _ (List.cons_ne_nil n []), List.getLast?_singleton]
  | enqueueStoreLast body n =>
    obtain ⟨rfl, hspine, hfirst⟩ := hshape
    exact ⟨_, _, [n], ms, rfl, advances_of_same hterritory rfl rfl rfl
      ⟨hsize, hspine, hfirst⟩ hstay rfl rfl⟩
  | enqueueLoadSize body =>
    exact ⟨_, _, ns, ms, rfl,
      advances_of_same hterritory rfl rfl rfl ⟨hsize, hshape, rfl⟩ hstay rfl rfl⟩
  | enqueueStoreSize body size =>
    obtain ⟨hends, rfl⟩ := hshape
    refine ⟨_, _, ns, ms ++ [body], rfl, advances_of_same hterritory rfl rfl rfl
      ⟨?_, hends.spine, hends.first⟩
      (Or.inr ⟨.qEnqueue body, rfl, rfl, rfl⟩) rfl rfl⟩
    simp [hsize]
  | dequeueLoadLast =>
    cases hlast : d.lastNode with
    | none =>
      have hspine := hshape.spine
      rw [hlast] at hspine
      obtain ⟨rfl, rfl⟩ := hspine.eq_nil
      refine ⟨d, .dequeueUnlock none, [], [], by simp [QueueData.access, hlast], ?_⟩
      exact advances_of_same hterritory rfl rfl rfl ⟨hsize, hshape⟩
        (Or.inr ⟨.qDequeue, rfl, rfl, rfl⟩) rfl rfl
    | some last =>
      refine ⟨d, .dequeueCopy last, ns, ms, by simp [QueueData.access, hlast], ?_⟩
      exact advances_of_same hterritory rfl rfl rfl ⟨hsize, hshape, hlast⟩ hstay rfl rfl
  | dequeueCopy last =>
    obtain ⟨hends, hlast⟩ := hshape
    have hspine := hends.spine
    rw [hlast] at hspine
    obtain ⟨node, rest, ms', hcell, -, hms, -⟩ := hspine.uncons
    refine ⟨_, _, ns, ms, by rw [QueueData.access, QueueData.deref_of_cell hcell]; rfl, ?_⟩
    exact advances_of_same hterritory rfl rfl rfl ⟨hsize, hends, hlast, by rw [hms]; rfl⟩ hstay rfl rfl
  | dequeueLoadParent last body =>
    obtain ⟨hends, hlast, hbody⟩ := hshape
    have hspine := hends.spine
    rw [hlast] at hspine
    obtain ⟨node, rest, ms', hcell, -⟩ := hspine.uncons
    refine ⟨_, _, ns, ms, by rw [QueueData.access, QueueData.deref_of_cell hcell]; rfl, ?_⟩
    exact advances_of_same hterritory rfl rfl rfl ⟨hsize, hends, hlast, hbody, by rw [hcell]; rfl⟩
      hstay rfl rfl
  | dequeueStoreLast last body parent =>
    obtain ⟨rest, -, hadvances⟩ := access_unlink hterritory ⟨hsize, hshape⟩
    exact ⟨_, _, rest, ms, rfl, hadvances⟩
  | dequeueFree last body =>
    obtain ⟨node, hcell⟩ := hterritory.live last (Or.inr rfl)
    refine ⟨_, _, ns, ms, by rw [QueueData.access, QueueData.deref_of_cell hcell]; rfl, ?_⟩
    exact access_free hterritory ⟨hsize, hshape⟩
  | dequeueTestFirst last body =>
    obtain ⟨rest, rfl, hspine, hfirst, hnot⟩ := hshape
    refine ⟨d, _, ns, body :: rest, rfl, ?_⟩
    cases ns with
    | nil =>
      rw [if_pos (show d.firstNode = some last from hfirst)]
      have hrest : rest = [] := List.length_eq_zero_iff.mp hspine.length_eq.symm
      subst hrest
      exact advances_of_same hterritory rfl rfl rfl ⟨hsize, rfl, rfl, hspine.start_eq⟩ hstay rfl rfl
    | cons a ns =>
      rw [List.getLast?_cons_cons] at hfirst
      have hne : d.firstNode ≠ some last := by
        intro heq
        exact hnot (List.mem_of_getLast? (hfirst.symm.trans heq))
      rw [if_neg hne]
      exact advances_of_same hterritory rfl rfl rfl ⟨hsize, rest, rfl, hspine, hfirst⟩ hstay rfl rfl
  | dequeueStoreFirst body =>
    obtain ⟨rfl, rfl, hlast⟩ := hshape
    refine ⟨_, _, [], [body], rfl, advances_of_same hterritory rfl rfl rfl
      ⟨hsize, [], rfl, ⟨?_, List.nodup_nil, rfl⟩, rfl⟩ hstay rfl rfl⟩
    change Chain d.nodes QNode.parent d.lastNode []
    rw [hlast]
    exact .nil
  | dequeueLoadSize body =>
    exact ⟨_, _, ns, ms, rfl,
      advances_of_same hterritory rfl rfl rfl ⟨hsize, hshape, rfl⟩ hstay rfl rfl⟩
  | dequeueStoreSize body size =>
    obtain ⟨⟨rest, rfl, hends⟩, rfl⟩ := hshape
    refine ⟨_, _, ns, rest, rfl, advances_of_same hterritory rfl rfl rfl
      ⟨?_, hends.spine, hends.first⟩
      (Or.inr ⟨.qDequeue, rfl, rfl, rfl⟩) rfl rfl⟩
    simp [hsize]
  | sizeLoad =>
    refine ⟨d, .sizeUnlock d.size, ns, ms, rfl, advances_of_same hterritory rfl rfl rfl ⟨hsize, hshape⟩
      (Or.inr ⟨.qSize, rfl, ?_, rfl⟩) rfl rfl⟩
    rw [hsize]
    rfl
  | _ => cases hguarded

end AmqpBroker
