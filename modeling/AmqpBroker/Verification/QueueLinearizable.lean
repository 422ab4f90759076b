import AmqpBroker.Foundations.Mutex
import AmqpBroker.Verification.QueueAccesses

/-!
# The mutexes make the queue atomic

Any number of threads inside the functions of `queue.c`, each of them stopped between any two
of its accesses. What the callers see is what a queue of strings with atomic calls could have
shown them, and every node belongs to the list or to one thread.
-/

namespace AmqpBroker

open Foundations

/-- Every allocated node is linked, or one thread has it to itself. -/
structure Divided (nodes : Heap QNode) (threads : ℕ → QueuePoint) (ns : List ℕ) : Prop where
  live : ∀ a, Live nodes a ↔ a ∈ ns ∨ ∃ i, (threads i).owned = some a
  apart : ∀ i a, (threads i).owned = some a → a ∉ ns
  own : ∀ i j a, (threads i).owned = some a → (threads j).owned = some a → i = j
  prepared : ∀ i n body, (threads i).prepared = some (n, body) →
    nodes.cells n = some { parent := none, length := body.length, body := body }

namespace Divided

variable {nodes : Heap QNode} {threads : ℕ → QueuePoint} {ns ns' : List ℕ} {i : ℕ}
  {point point' : QueuePoint} {d d' : QueueData} {ms ms' : List (List UInt8)}

/-- A prepared node is the thread's own. -/
theorem prepared_owned {n : ℕ} {body : List UInt8} (h : point.prepared = some (n, body)) :
    point.owned = some n := by
  cases point <;> simp_all [QueuePoint.prepared, QueuePoint.owned]

/-- What the thread may touch while it holds the mutex. -/
theorem territory (h : Divided nodes threads ns) (i : ℕ) : Territory nodes (threads i) ns where
  live a ha := (h.live a).mpr (ha.imp id fun hown => ⟨i, hown⟩)
  apart := h.apart i
  prepared := h.prepared i

/-- A thread that moves on with what it has. -/
theorem move (h : Divided nodes threads ns) (howned : point.owned = (threads i).owned)
    (hprepared : point.prepared = (threads i).prepared) :
    Divided nodes (Function.update threads i point) ns := by
  have howns : ∀ j, (Function.update threads i point j).owned = (threads j).owned := by
    intro j
    by_cases hj : j = i
    · rw [hj, Function.update_self, howned]
    · rw [Function.update_of_ne hj]
  have hprepares : ∀ j, (Function.update threads i point j).prepared = (threads j).prepared := by
    intro j
    by_cases hj : j = i
    · rw [hj, Function.update_self, hprepared]
    · rw [Function.update_of_ne hj]
  refine ⟨fun a => ?_, fun j a ha => ?_, fun j k a hj hk => ?_, fun j n body hj => ?_⟩
  · simp only [howns]
    exact h.live a
  · exact h.apart j a (by rwa [howns] at ha)
  · rw [howns] at hj hk
    exact h.own j k a hj hk
  · rw [hprepares] at hj
    exact h.prepared j n body hj

/-- The holder of the mutex makes an access. -/
theorem advance (h : Divided d.nodes threads ns)
    (hadvances : Advances d (threads i) ns ms d' point' ns' ms') :
    Divided d'.nodes (Function.update threads i point') ns' := by
  have hother : ∀ j a, j ≠ i → (threads j).owned = some a → a ∉ ns ∧ (threads i).owned ≠ some a :=
    fun j a hj ha => ⟨h.apart j a ha, fun hi => hj (h.own j i a ha hi)⟩
  refine ⟨fun a => ⟨fun hlive => ?_, ?_⟩, fun j a ha => ?_, fun j k a hj hk => ?_,
    fun j n body hj => ?_⟩
  · by_cases hmine : a ∈ ns ∨ (threads i).owned = some a
    · obtain hlinked | hown := hadvances.gone a hmine hlive
      · exact Or.inl hlinked
      · exact Or.inr ⟨i, by rwa [Function.update_self]⟩
    · obtain ⟨hns, hown⟩ := not_or.mp hmine
      rw [Live, hadvances.kept a hns hown] at hlive
      obtain hlinked | ⟨j, hj⟩ := (h.live a).mp hlive
      · exact absurd hlinked hns
      · have hji : j ≠ i := fun heq => hown (heq ▸ hj)
        exact Or.inr ⟨j, by rwa [Function.update_of_ne hji]⟩
  · rintro (hlinked | ⟨j, hj⟩)
    · exact hadvances.territory.live a (Or.inl hlinked)
    · by_cases hji : j = i
      · subst hji
        rw [Function.update_self] at hj
        exact hadvances.territory.live a (Or.inr hj)
      · rw [Function.update_of_ne hji] at hj
        obtain ⟨hns, hown⟩ := hother j a hji hj
        rw [Live, hadvances.kept a hns hown]
        exact (h.live a).mpr (Or.inr ⟨j, hj⟩)
  · by_cases hji : j = i
    · subst hji
      rw [Function.update_self] at ha
      exact hadvances.territory.apart a ha
    · rw [Function.update_of_ne hji] at ha
      obtain ⟨hns, hown⟩ := hother j a hji ha
      exact fun hlinked => (hadvances.old a (Or.inl hlinked)).elim hns hown
  · have hmine : ∀ l, l ≠ i → (threads l).owned = some a → point'.owned ≠ some a := by
      intro l hl ha hpoint
      obtain ⟨hns, hown⟩ := hother l a hl ha
      exact (hadvances.old a (Or.inr hpoint)).elim hns hown
    by_cases hji : j = i
    · by_cases hki : k = i
      · rw [hji, hki]
      · rw [hji, Function.update_self] at hj
        rw [Function.update_of_ne hki] at hk
        exact absurd hj (hmine k hki hk)
    · rw [Function.update_of_ne hji] at hj
      by_cases hki : k = i
      · rw [hki, Function.update_self] at hk
        exact absurd hk (hmine j hji hj)
      · rw [Function.update_of_ne hki] at hk
        exact h.own j k a hj hk
  · by_cases hji : j = i
    · subst hji
      rw [Function.update_self] at hj
      exact hadvances.territory.prepared n body hj
    · rw [Function.update_of_ne hji] at hj
      obtain ⟨hns, hown⟩ := hother j n hji (prepared_owned hj)
      rw [hadvances.kept n hns hown]
      exact h.prepared j n body hj

/-- `malloc` gives a thread a node that nobody has. -/
theorem malloc {n : ℕ} {body : List UInt8} (h : Divided nodes threads ns)
    (hfree : nodes.cells n = none) (hi : (threads i).owned = none) :
    Divided (nodes.allocAt n { parent := none, length := body.length, body := body })
      (Function.update threads i (.enqueueLock body n)) ns := by
  have hdead : ¬ Live nodes n := by
    rintro ⟨node, hnode⟩
    rw [hfree] at hnode
    cases hnode
  have hns : n ∉ ns := fun hlinked => hdead ((h.live n).mpr (Or.inl hlinked))
  have hnobody : ∀ j, (threads j).owned ≠ some n := fun j hj =>
    hdead ((h.live n).mpr (Or.inr ⟨j, hj⟩))
  have howned : ∀ j a, (Function.update threads i (.enqueueLock body n) j).owned = some a ↔
      j = i ∧ a = n ∨ (threads j).owned = some a := by
    intro j a
    by_cases hji : j = i
    · subst hji
      rw [Function.update_self, hi]
      simp [QueuePoint.owned, QueuePoint.prepared, eq_comm]
    · rw [Function.update_of_ne hji]
      simp [hji]
  refine ⟨fun a => ?_, fun j a ha => ?_, fun j k a hj hk => ?_, fun j m string hj => ?_⟩
  · simp only [howned]
    by_cases ha : a = n
    · subst ha
      exact iff_of_true ⟨_, if_pos rfl⟩ (Or.inr ⟨i, Or.inl ⟨rfl, rfl⟩⟩)
    · rw [Live, Heap.allocAt_cells, if_neg ha]
      simpa [ha, Live] using h.live a
  · obtain ⟨-, rfl⟩ | ha := (howned j a).mp ha
    · exact hns
    · exact h.apart j a ha
  · obtain ⟨hji, ha⟩ | hj' := (howned j a).mp hj
    · obtain ⟨hki, -⟩ | hk' := (howned k a).mp hk
      · rw [hji, hki]
      · exact absurd (ha ▸ hk') (hnobody k)
    · obtain ⟨-, ha⟩ | hk' := (howned k a).mp hk
      · exact absurd (ha ▸ hj') (hnobody j)
      · exact h.own j k a hj' hk'
  · by_cases hji : j = i
    · rw [hji, Function.update_self] at hj
      obtain ⟨rfl, rfl⟩ := Prod.mk.inj (Option.some.inj hj)
      rw [Heap.allocAt_cells, if_pos rfl]
    · rw [Function.update_of_ne hji] at hj
      have hm : m ≠ n := fun heq => hnobody j (heq ▸ prepared_owned hj)
      rw [Heap.allocAt_cells, if_neg hm]
      exact h.prepared j m string hj

end Divided

/-- The point of the thread that holds the mutex. -/
def holderPoint (mutex : Option ℕ) (threads : ℕ → QueuePoint) : QueuePoint :=
  match mutex with
  | none => .outside
  | some i => threads i

/-- Points at which a thread leaves the queue as it should be. -/
def QueuePoint.Rests (point : QueuePoint) : Prop :=
  ∀ (d : QueueData) (ns : List ℕ) (ms : List (List UInt8)), d.Shape ns ms point = d.Ends ns ms

/-- A thread moves on with what it has, and nothing is seen of it from outside. -/
structure Quiet (before after : QueuePoint) : Prop where
  owned : after.owned = before.owned
  prepared : after.prepared = before.prepared
  standing : after.standing = before.standing

/-- The object whose calls are those of the threads. -/
abbrev QueueObject := AtomicObject ℕ (List (List UInt8)) QueueOp QueueAnswer

namespace QueueAccess

/-- The threads are where the callers of the object are, and the queue is what the object
holds, up to what the holder of the mutex is about to do. -/
structure Tracks (s : QueueAccess) (o : QueueObject) (ns : List ℕ) : Prop where
  mutex : Holds QueuePoint.locked s.mutex s.threads
  newMsgMutex : Holds QueuePoint.msgLocked s.newMsgMutex s.threads
  asleep : ∀ i ∈ s.newMsgCond, s.threads i = .waitWake
  divided : Divided s.data.nodes s.threads ns
  fits : s.data.Fits (holderPoint s.mutex s.threads) ns o.state
  callers : ∀ i, o.callers i = (s.threads i).standing
  history : o.history = s.history

variable {s s' : QueueAccess} {o o' : QueueObject} {ns : List ℕ} {i : ℕ} {before point : QueuePoint}

/-- The holder of the mutex is the thread inside. -/
theorem Tracks.holderPoint_eq (h : s.Tracks o ns) (hi : (s.threads i).locked = true) :
    holderPoint s.mutex s.threads = s.threads i := by
  rw [(h.mutex i).mpr hi]
  rfl

/-- A thread without the mutex is not the holder. -/
theorem Tracks.holderPoint_update (h : s.Tracks o ns) (hi : (s.threads i).locked = false) :
    holderPoint s.mutex (Function.update s.threads i point) = holderPoint s.mutex s.threads := by
  cases hmutex : s.mutex with
  | none => rfl
  | some j =>
    have hji : j ≠ i := by
      rintro rfl
      rw [(h.mutex j).mp hmutex] at hi
      cases hi
    exact Function.update_of_ne hji _ _

/-- The object when a call of a thread moves on. -/
theorem Tracks.callers_update (h : s.Tracks o ns) {standing : Standing QueueOp QueueAnswer}
    (hpoint : standing = point.standing) (j : ℕ) :
    Function.update o.callers i standing j = (Function.update s.threads i point j).standing := by
  by_cases hj : j = i
  · rw [hj, Function.update_self, Function.update_self, hpoint]
  · rw [Function.update_of_ne hj, Function.update_of_ne hj, h.callers j]

/-- The object when nothing is seen of a step. -/
theorem Tracks.callers_same (h : s.Tracks o ns) (hpoint : point.standing = (s.threads i).standing)
    (j : ℕ) : o.callers j = (Function.update s.threads i point j).standing := by
  by_cases hj : j = i
  · rw [hj, Function.update_self, hpoint, h.callers]
  · rw [Function.update_of_ne hj, h.callers j]

/-- Only a thread in `pthread_cond_wait` is asleep. -/
theorem Tracks.awake (h : s.Tracks o ns) (hi : s.threads i ≠ .waitWake) : i ∉ s.newMsgCond :=
  fun hasleep => hi (h.asleep i hasleep)

/-- A thread that is awake moves on. -/
theorem Tracks.asleep_update (h : s.Tracks o ns) (hi : i ∉ s.newMsgCond) :
    ∀ j ∈ s.newMsgCond, Function.update s.threads i point j = .waitWake := by
  intro j hj
  have hji : j ≠ i := fun heq => hi (heq ▸ hj)
  rw [Function.update_of_ne hji]
  exact h.asleep j hj

/-- A thread takes the mutex. -/
theorem Tracks.lock (h : s.Tracks o ns) (hi : s.threads i = before)
    (hstep : s.lockMutex i point = .ok s') (hquiet : Quiet before point)
    (hbefore : before ≠ .waitWake) (hpoint : point.locked = true) (hrests : point.Rests)
    (hmsg : point.msgLocked = before.msgLocked) : s'.Tracks o ns := by
  subst hi
  unfold lockMutex at hstep
  split at hstep
  · rename_i hfree
    obtain rfl := Except.ok.inj hstep
    have hmutex := h.mutex
    have hfits := h.fits
    rw [hfree] at hmutex hfits
    refine ⟨hmutex.lock hpoint, h.newMsgMutex.move hmsg, h.asleep_update (h.awake hbefore),
      h.divided.move hquiet.owned hquiet.prepared, ⟨hfits.size, ?_⟩,
      h.callers_same hquiet.standing, h.history⟩
    change s.data.Shape ns o.state (Function.update s.threads i point i)
    rw [Function.update_self, hrests]
    exact hfits.shape
  · cases hstep

/-- A thread gives the mutex back. -/
theorem Tracks.unlock (h : s.Tracks o ns) (hi : s.threads i = before)
    (hstep : s.unlockMutex i point = .ok s') (hquiet : Quiet before point)
    (hbefore : before.locked = true) (hpoint : point.locked = false) (hrests : before.Rests)
    (hmsg : point.msgLocked = before.msgLocked) : s'.Tracks o ns := by
  subst hi
  obtain rfl := Except.ok.inj hstep
  have hfits := h.fits
  rw [h.holderPoint_eq hbefore] at hfits
  have hwake : s.threads i ≠ .waitWake := by
    intro heq
    rw [heq] at hbefore
    cases hbefore
  exact ⟨h.mutex.unlock hbefore hpoint, h.newMsgMutex.move hmsg, h.asleep_update (h.awake hwake),
    h.divided.move hquiet.owned hquiet.prepared,
    ⟨hfits.size, (iff_of_eq (hrests _ _ _)).mp hfits.shape⟩, h.callers_same hquiet.standing, h.history⟩

/-- A thread moves on and leaves the queue and its mutex alone. -/
theorem Tracks.move (h : s.Tracks o ns) (hi : s.threads i = before) {newMsgMutex : Option ℕ}
    {newMsgCond : Finset ℕ} {history : List (CallEvent ℕ QueueOp QueueAnswer)}
    (hmsg : Holds QueuePoint.msgLocked newMsgMutex (Function.update s.threads i point))
    (hasleep : ∀ j ∈ newMsgCond, Function.update s.threads i point j = .waitWake)
    (howned : point.owned = before.owned) (hprepared : point.prepared = before.prepared)
    (hlocked : point.locked = before.locked)
    (hrests : point.locked = true → point.Rests ∧ before.Rests) (hstate : o'.state = o.state)
    (hcallers : ∀ j, o'.callers j = (Function.update s.threads i point j).standing)
    (hhistory : o'.history = history) :
    Tracks
      { s with
        newMsgMutex := newMsgMutex
        newMsgCond := newMsgCond
        threads := Function.update s.threads i point
        history := history } o' ns := by
  subst hi
  refine ⟨h.mutex.move hlocked, hmsg, hasleep, h.divided.move howned hprepared, ?_, hcallers, hhistory⟩
  change s.data.Fits (holderPoint s.mutex (Function.update s.threads i point)) ns o'.state
  rw [hstate]
  have hfits := h.fits
  cases hi : (s.threads i).locked with
  | false => rwa [h.holderPoint_update hi]
  | true =>
    obtain ⟨hpoint, hthread⟩ := hrests (hlocked.trans hi)
    rw [h.holderPoint_eq hi] at hfits
    rw [(h.mutex i).mpr hi]
    change s.data.Fits (Function.update s.threads i point i) ns o.state
    rw [Function.update_self]
    refine ⟨hfits.size, ?_⟩
    rw [hpoint, ← hthread]
    exact hfits.shape

/-- A thread takes the second mutex. -/
theorem Tracks.lockMsg (h : s.Tracks o ns) (hi : s.threads i = before)
    (hstep : s.lockMsg i point = .ok s') (hquiet : Quiet before point) (hawake : i ∉ s.newMsgCond)
    (hpoint : point.msgLocked = true) (hlocked : point.locked = before.locked)
    (hrests : point.locked = true → point.Rests ∧ before.Rests) : s'.Tracks o ns := by
  unfold QueueAccess.lockMsg at hstep
  split at hstep
  · rename_i hfree
    obtain rfl := Except.ok.inj hstep
    have hmsg := h.newMsgMutex
    rw [hfree] at hmsg
    exact h.move hi (hmsg.lock hpoint) (h.asleep_update hawake) hquiet.owned hquiet.prepared hlocked
      hrests rfl (h.callers_same (hi ▸ hquiet.standing)) h.history
  · cases hstep

/-- A thread gives the second mutex back. -/
theorem Tracks.unlockMsg (h : s.Tracks o ns) (hi : s.threads i = before)
    (hstep : s.unlockMsg i point = .ok s') (hquiet : Quiet before point)
    (hbefore : before.msgLocked = true) (hpoint : point.msgLocked = false)
    (hlocked : point.locked = before.locked)
    (hrests : point.locked = true → point.Rests ∧ before.Rests) : s'.Tracks o ns := by
  obtain rfl := Except.ok.inj hstep
  have hwake : s.threads i ≠ .waitWake := by
    intro heq
    rw [← hi, heq] at hbefore
    cases hbefore
  exact h.move hi (h.newMsgMutex.unlock (hi ▸ hbefore) hpoint) (h.asleep_update (h.awake hwake))
    hquiet.owned hquiet.prepared hlocked hrests rfl (h.callers_same (hi ▸ hquiet.standing)) h.history

/-- What a thread does next where it needs the mutex. -/
theorem run_of_guarded (hi : (s.threads i).guarded = true) :
    s.run i = (s.data.access (s.threads i)).map fun r => { s with data := r.1 }.goto i r.2 := by
  unfold run
  generalize s.threads i = point at hi
  cases point <;> first | rfl | cases hi

/-- The guarded accesses are made with the mutex. -/
theorem locked_of_guarded (hi : point.guarded = true) : point.locked = true := by
  cases point <;> first | rfl | cases hi

/-- The guarded accesses are made without `new_msg_mutex`. -/
theorem msgLocked_of_guarded (hi : point.guarded = true) : point.msgLocked = false := by
  cases point <;> first | rfl | cases hi

/-- The holder of the mutex makes an access, with which its call may take effect. -/
theorem Tracks.access (h : s.Tracks o ns) (hposs : AtomicObject.Possible serveQueue [] o)
    (hi : (s.threads i).guarded = true) (hrun : s.run i = .ok s') :
    ∃ o' ns', AtomicObject.Possible serveQueue [] o' ∧ s'.Tracks o' ns' := by
  have hlocked := locked_of_guarded hi
  have hfits := h.fits
  rw [h.holderPoint_eq hlocked] at hfits
  obtain ⟨d', point', ns', ms', haccess, hadvances⟩ :=
    access_advances (h.divided.territory i) hfits hi
  rw [run_of_guarded hi, haccess] at hrun
  obtain rfl := Except.ok.inj hrun
  have hwake : s.threads i ≠ .waitWake := by
    intro heq
    rw [heq] at hlocked
    cases hlocked
  have htracks : ∀ o' : QueueObject, o'.state = ms' → o'.history = o.history →
      (∀ j, o'.callers j = (Function.update s.threads i point' j).standing) →
        ({ s with data := d' }.goto i point').Tracks o' ns' := by
    intro o' hstate hhistory hcallers
    refine ⟨h.mutex.move (hadvances.locked.trans hlocked.symm),
      h.newMsgMutex.move (hadvances.msgLocked.trans (msgLocked_of_guarded hi).symm),
      h.asleep_update (h.awake hwake), h.divided.advance hadvances, ?_, hcallers,
      hhistory.trans h.history⟩
    change d'.Fits (holderPoint s.mutex (Function.update s.threads i point')) ns' o'.state
    rw [(h.mutex i).mpr hlocked, hstate]
    change d'.Fits (Function.update s.threads i point' i) ns' ms'
    rw [Function.update_self]
    exact hadvances.fits
  obtain ⟨hstanding, hms⟩ | ⟨op, hwaiting, hserved, hms⟩ := hadvances.serves
  · exact ⟨o, ns', hposs, htracks o hms.symm rfl (h.callers_same hstanding)⟩
  · have hcaller := (h.callers i).trans hwaiting
    exact ⟨_, ns', hposs.effect hcaller, htracks _ hms.symm rfl (h.callers_update hserved.symm)⟩

/-- The test of `wait_msg`, at any moment of what the holder of the mutex does. -/
theorem Tracks.waitTest (h : s.Tracks o ns) (hposs : AtomicObject.Possible serveQueue [] o)
    (hi : s.threads i = .waitTest) (hrun : s.run i = .ok s') :
    ∃ o', AtomicObject.Possible serveQueue [] o' ∧ s'.Tracks o' ns := by
  have hsize := h.fits.size
  have hcaller : o.callers i = .waiting .waitMsg := by rw [h.callers, hi]; rfl
  rw [run, hi] at hrun
  obtain rfl := Except.ok.inj hrun
  have hafter : ∀ point : QueuePoint,
      point = (if s.data.size = 0 then .waitLock else .returning (.count s.data.size)) →
        point.owned = none ∧ point.prepared = none ∧ point.locked = false ∧
          point.msgLocked = false ∧ point.standing = .served (.count o.state.length) := by
    rintro point rfl
    rw [← hsize]
    split
    · rename_i hzero
      rw [hzero]
      exact ⟨rfl, rfl, rfl, rfl, rfl⟩
    · exact ⟨rfl, rfl, rfl, rfl, rfl⟩
  obtain ⟨howned, hprepared, hlocked, hmsg, hstanding⟩ := hafter _ rfl
  exact ⟨_, hposs.effect hcaller, h.move hi (h.newMsgMutex.move (hi ▸ hmsg))
    (h.asleep_update (h.awake (by simp [hi]))) howned hprepared hlocked
    (fun hinside => by rw [hlocked] at hinside; cases hinside) rfl
    (h.callers_update hstanding.symm) h.history⟩

/-- A thread calls a function. -/
theorem Tracks.call {op : QueueOp} (h : s.Tracks o ns)
    (hposs : AtomicObject.Possible serveQueue [] o) (hstep : s.call i op = .ok s') :
    ∃ o', AtomicObject.Possible serveQueue [] o' ∧ s'.Tracks o' ns := by
  unfold QueueAccess.call at hstep
  split at hstep
  · rename_i hi
    obtain rfl := Except.ok.inj hstep
    have hcaller : o.callers i = .idle := by rw [h.callers, hi]; rfl
    have hentry : op.entry.owned = none ∧ op.entry.prepared = none ∧ op.entry.locked = false ∧
        op.entry.msgLocked = false ∧ op.entry.standing = .waiting op := by
      cases op <;> exact ⟨rfl, rfl, rfl, rfl, rfl⟩
    obtain ⟨howned, hprepared, hlocked, hmsg, hstanding⟩ := hentry
    exact ⟨_, hposs.begins hcaller, h.move hi (h.newMsgMutex.move (hi ▸ hmsg))
      (h.asleep_update (h.awake (by simp [hi]))) howned hprepared hlocked
      (fun hinside => by rw [hlocked] at hinside; cases hinside) rfl
      (h.callers_update hstanding.symm) (congrArg (· ++ [CallEvent.begins i op]) h.history)⟩
  · cases hstep

/-- `malloc` returns to a thread. -/
theorem Tracks.malloc {n : ℕ} (h : s.Tracks o ns) (hstep : s.malloc i n = .ok s') :
    s'.Tracks o ns := by
  unfold QueueAccess.malloc at hstep
  split at hstep
  · rename_i body hi
    split at hstep
    · rename_i hfree
      obtain rfl := Except.ok.inj hstep
      have hsame : ∀ a, Live s.data.nodes a →
          (s.data.nodes.allocAt n ⟨none, body.length, body⟩).cells a = s.data.nodes.cells a := by
        rintro a ⟨node, hnode⟩
        rw [Heap.allocAt_cells, if_neg]
        rintro rfl
        rw [hfree] at hnode
        cases hnode
      refine ⟨h.mutex.move (hi ▸ rfl), h.newMsgMutex.move (hi ▸ rfl),
        h.asleep_update (h.awake (by simp [hi])), h.divided.malloc hfree (hi ▸ rfl), ?_,
        h.callers_same (hi ▸ rfl), h.history⟩
      have hfits := h.fits.congr hsame
      rwa [← h.holderPoint_update (by rw [hi]; rfl)] at hfits
    · cases hstep
  · cases hstep

/-- A thread that returns from a function. -/
theorem Tracks.returns {answer : QueueAnswer} (h : s.Tracks o ns)
    (hposs : AtomicObject.Possible serveQueue [] o) (hi : s.threads i = .returning answer)
    (hrun : s.run i = .ok s') :
    ∃ o', AtomicObject.Possible serveQueue [] o' ∧ s'.Tracks o' ns := by
  rw [run, hi] at hrun
  obtain rfl := Except.ok.inj hrun
  have hcaller : o.callers i = .served answer := by rw [h.callers, hi]; rfl
  exact ⟨_, hposs.returns hcaller, h.move hi (h.newMsgMutex.move (hi ▸ rfl))
    (h.asleep_update (h.awake (by simp [hi]))) rfl rfl rfl (fun hlocked => by cases hlocked) rfl
    (h.callers_update rfl) (congrArg (· ++ [CallEvent.returns i answer]) h.history)⟩

/-- A step of a thread at a mutex or a condition variable is not seen from outside. -/
theorem Tracks.sync (h : s.Tracks o ns) (hguarded : (s.threads i).guarded = false)
    (htest : s.threads i ≠ .waitTest) (hreturning : ∀ answer, s.threads i ≠ .returning answer)
    (hrun : s.run i = .ok s') : s'.Tracks o ns := by
  cases hi : s.threads i with
  | returning answer => exact absurd hi (hreturning answer)
  | waitTest => exact absurd hi htest
  | enqueueLock | dequeueLock | sizeLock =>
    rw [run, hi] at hrun
    exact h.lock hi hrun ⟨rfl, rfl, rfl⟩ (by simp) rfl (fun _ _ _ => rfl) rfl
  | enqueueUnlock | dequeueUnlock | sizeUnlock =>
    rw [run, hi] at hrun
    exact h.unlock hi hrun ⟨rfl, rfl, rfl⟩ rfl rfl (fun _ _ _ => rfl) rfl
  | enqueueLockMsg | waitLock =>
    rw [run, hi] at hrun
    exact h.lockMsg hi hrun ⟨rfl, rfl, rfl⟩ (h.awake (by simp [hi])) rfl rfl
      fun _ => ⟨fun _ _ _ => rfl, fun _ _ _ => rfl⟩
  | enqueueUnlockMsg | waitUnlock =>
    rw [run, hi] at hrun
    exact h.unlockMsg hi hrun ⟨rfl, rfl, rfl⟩ rfl rfl rfl
      fun _ => ⟨fun _ _ _ => rfl, fun _ _ _ => rfl⟩
  | enqueueBroadcast =>
    rw [run, hi] at hrun
    obtain rfl := Except.ok.inj hrun
    exact h.move hi (h.newMsgMutex.move (hi ▸ rfl)) (by simp) rfl rfl rfl
      (fun _ => ⟨fun _ _ _ => rfl, fun _ _ _ => rfl⟩) rfl (h.callers_same (hi ▸ rfl)) h.history
  | waitSleep =>
    rw [run, hi] at hrun
    obtain rfl := Except.ok.inj hrun
    refine h.move hi (h.newMsgMutex.unlock (hi ▸ rfl) rfl) (fun j hj => ?_) rfl rfl rfl
      (fun hlocked => by cases hlocked) rfl (h.callers_same (hi ▸ rfl)) h.history
    obtain rfl | hj := Finset.mem_insert.mp hj
    · rw [Function.update_self]
    · exact h.asleep_update (h.awake (by simp [hi])) j hj
  | waitWake =>
    rw [run, hi] at hrun
    change (if i ∈ s.newMsgCond then _ else _) = _ at hrun
    split at hrun
    · cases hrun
    · rename_i hawake
      exact h.lockMsg hi hrun ⟨rfl, rfl, rfl⟩ hawake rfl rfl fun hlocked => by cases hlocked
  | outside | enqueueMalloc =>
    rw [run, hi] at hrun
    cases hrun
  | _ =>
    rw [hi] at hguarded
    cases hguarded

/-- Whatever happens, the object can follow. -/
theorem Tracks.step {act : QueueAct} (h : s.Tracks o ns)
    (hposs : AtomicObject.Possible serveQueue [] o) (hstep : s.step act = .ok s') :
    ∃ o' ns', AtomicObject.Possible serveQueue [] o' ∧ s'.Tracks o' ns' := by
  cases act with
  | call i op =>
    obtain ⟨o', hposs', htracks⟩ := h.call hposs hstep
    exact ⟨o', ns, hposs', htracks⟩
  | malloc i n => exact ⟨o, ns, hposs, h.malloc hstep⟩
  | run i =>
    cases hguarded : (s.threads i).guarded with
    | true => exact h.access hposs hguarded hstep
    | false =>
      by_cases htest : s.threads i = .waitTest
      · obtain ⟨o', hposs', htracks⟩ := h.waitTest hposs htest hstep
        exact ⟨o', ns, hposs', htracks⟩
      · by_cases hreturning : ∃ answer, s.threads i = .returning answer
        · obtain ⟨answer, hi⟩ := hreturning
          obtain ⟨o', hposs', htracks⟩ := h.returns hposs hi hstep
          exact ⟨o', ns, hposs', htracks⟩
        · exact ⟨o, ns, hposs, h.sync hguarded htest (fun answer hi => hreturning ⟨answer, hi⟩) hstep⟩
  | spurious i =>
    change s.wake i = _ at hstep
    unfold wake at hstep
    split at hstep
    · obtain rfl := Except.ok.inj hstep
      exact ⟨o, ns, hposs, { h with asleep := fun j hj => h.asleep j (Finset.mem_of_mem_erase hj) }⟩
    · cases hstep

/-- The empty queue is the empty FIFO. -/
theorem tracks_initial : initial.Tracks (.initial []) [] where
  mutex i := by simp [initial, QueuePoint.locked]
  newMsgMutex i := by simp [initial, QueuePoint.msgLocked]
  asleep i hi := by simp [initial] at hi
  divided := by
    refine ⟨fun a => ?_, ?_, ?_, ?_⟩ <;> simp [initial, Live, QueuePoint.owned, QueuePoint.prepared]
  fits := ⟨rfl, ⟨.nil, List.nodup_nil, rfl⟩, rfl⟩
  callers _ := rfl
  history := rfl

/-- Every state that the threads reach is matched by one that the object can reach. -/
theorem exists_tracks {guard : QueueAccess → QueueAct → Prop} (h : Reaches step guard initial s) :
    ∃ o ns, AtomicObject.Possible serveQueue [] o ∧ s.Tracks o ns :=
  h.invariant (P := fun s => ∃ o ns, AtomicObject.Possible serveQueue [] o ∧ s.Tracks o ns)
    ⟨_, _, .refl, tracks_initial⟩ fun _ _ _ ⟨_, _, hposs, htracks⟩ _ hstep =>
      htracks.step hposs hstep

/-- What the callers of the queue functions see, any interleaving of single accesses, is a
history of a queue of strings with atomic calls; and whenever the mutex is free, the nodes
along `parent` hold the strings of that queue, and no other node is allocated but those that
`q_enqueue` has in preparation. -/
theorem accesses_linearizable {guard : QueueAccess → QueueAct → Prop}
    (h : Reaches step guard initial s) :
    ∃ o, AtomicObject.Possible serveQueue [] o ∧ o.history = s.history ∧
      (s.mutex = none → ∃ ns, s.data.Ends ns o.state ∧ s.data.size = o.state.length ∧
        ∀ a, Live s.data.nodes a ↔ a ∈ ns ∨ ∃ i body, (s.threads i).prepared = some (a, body)) := by
  obtain ⟨o, ns, hposs, htracks⟩ := exists_tracks h
  refine ⟨o, hposs, htracks.history, fun hfree => ⟨ns, ?_, htracks.fits.size, fun a => ?_⟩⟩
  · have hfits := htracks.fits
    rw [hfree] at hfits
    exact hfits.shape
  · rw [htracks.divided.live a]
    refine or_congr_right ⟨fun ⟨i, hi⟩ => ⟨i, ?_⟩, fun ⟨i, body, hi⟩ => ⟨i, Divided.prepared_owned hi⟩⟩
    have houtside : (s.threads i).locked = false := by
      have hmutex := htracks.mutex
      rw [hfree] at hmutex
      exact hmutex.outside i
    revert hi houtside
    cases s.threads i <;> simp [QueuePoint.owned, QueuePoint.prepared, QueuePoint.locked]

/-- `q_dequeue` has given its node back and not yet compared `first_node` with it, and another
thread gets the same address from `malloc`; a third one reads `size` in the meantime. -/
def reusedAddress : List QueueAct :=
  [.call 0 (.qEnqueue [104]), .malloc 0 5] ++ List.replicate 12 (.run 0) ++
    [.call 1 .qDequeue] ++ List.replicate 6 (.run 1) ++
    [.call 0 (.qEnqueue [105]), .malloc 0 5, .call 2 .waitMsg, .run 2, .run 2] ++
    List.replicate 6 (.run 1) ++ List.replicate 12 (.run 0)

/-- The address came back as the new node, and nobody has taken it for the old one. -/
theorem accesses_linearizable_reusedAddress :
    ∃ s, exec step initial reusedAddress = .ok s ∧ s.data.lastNode = some 5 ∧
      s.history = [.begins 0 (.qEnqueue [104]), .returns 0 .done, .begins 1 .qDequeue,
        .begins 0 (.qEnqueue [105]), .begins 2 .waitMsg, .returns 2 (.count 1),
        .returns 1 (.message (some [104])), .returns 0 .done] ∧
      ∃ o, AtomicObject.Possible serveQueue [] o ∧ o.history = s.history ∧
        (s.mutex = none → ∃ ns, s.data.Ends ns o.state ∧ s.data.size = o.state.length ∧
          ∀ a, Live s.data.nodes a ↔ a ∈ ns ∨ ∃ i body, (s.threads i).prepared = some (a, body)) := by
  have hobserved : (exec step initial reusedAddress).toOption.map
      (fun s => (s.data.lastNode, s.history)) =
        some (some 5, [.begins 0 (.qEnqueue [104]), .returns 0 .done, .begins 1 .qDequeue,
          .begins 0 (.qEnqueue [105]), .begins 2 .waitMsg, .returns 2 (.count 1),
          .returns 1 (.message (some [104])), .returns 0 .done]) := by decide +kernel
  obtain ⟨s, hrun, hview⟩ := exec_observed hobserved
  obtain ⟨hlast, hhistory⟩ := Prod.mk.inj hview
  exact ⟨s, hrun, hlast, hhistory, accesses_linearizable (reaches_of_exec hrun)⟩

/-- Where the thread stands at a lock, it is free or somebody has it. -/
theorem lockMutex_error {reason : Abort} (hrun : s.lockMutex i point = .error reason) :
    reason = .blocked ∧ s.mutex ≠ none := by
  unfold lockMutex at hrun
  split at hrun
  · cases hrun
  · rename_i hheld
    exact ⟨(Except.error.inj hrun).symm, hheld⟩

/-- Only a held `new_msg_mutex` keeps a thread from it. -/
theorem lockMsg_error {reason : Abort} (hrun : s.lockMsg i point = .error reason) :
    reason = .blocked ∧ s.newMsgMutex ≠ none := by
  unfold lockMsg at hrun
  split at hrun
  · cases hrun
  · rename_i hheld
    exact ⟨(Except.error.inj hrun).symm, hheld⟩

/-- Why a thread does not go on. -/
inductive Waits (s : QueueAccess) (i : ℕ) : Prop
  /-- It has no call to make or to go on with. -/
  | idle : s.threads i = .outside → Waits s i
  | malloc {body : List UInt8} : s.threads i = .enqueueMalloc body → Waits s i
  | asleep : s.threads i = .waitWake → i ∈ s.newMsgCond → Waits s i
  /-- Another thread has the mutex. -/
  | mutex : (s.threads i).locked = false → (s.threads i).msgLocked = false → s.mutex ≠ none →
      Waits s i
  | newMsgMutex : (s.threads i).msgLocked = false → s.newMsgMutex ≠ none → Waits s i

/-- A thread that does not go on waits for something. -/
theorem Tracks.waits {reason : Abort} (h : s.Tracks o ns) (hrun : s.run i = .error reason) :
    reason = .blocked ∧ s.Waits i := by
  cases hguarded : (s.threads i).guarded with
  | true =>
    have hfits := h.fits
    rw [h.holderPoint_eq (locked_of_guarded hguarded)] at hfits
    obtain ⟨d', point', -, -, haccess, -⟩ := access_advances (h.divided.territory i) hfits hguarded
    rw [run_of_guarded hguarded, haccess] at hrun
    cases hrun
  | false =>
    cases hi : s.threads i with
    | outside =>
      rw [run, hi] at hrun
      exact ⟨(Except.error.inj hrun).symm, .idle hi⟩
    | enqueueMalloc body =>
      rw [run, hi] at hrun
      exact ⟨(Except.error.inj hrun).symm, .malloc hi⟩
    | enqueueLock | dequeueLock | sizeLock =>
      rw [run, hi] at hrun
      obtain ⟨hreason, hheld⟩ := lockMutex_error hrun
      exact ⟨hreason, .mutex (by rw [hi]; rfl) (by rw [hi]; rfl) hheld⟩
    | enqueueLockMsg | waitLock =>
      rw [run, hi] at hrun
      obtain ⟨hreason, hheld⟩ := lockMsg_error hrun
      exact ⟨hreason, .newMsgMutex (by rw [hi]; rfl) hheld⟩
    | waitWake =>
      rw [run, hi] at hrun
      change (if i ∈ s.newMsgCond then _ else _) = _ at hrun
      split at hrun
      · rename_i hasleep
        exact ⟨(Except.error.inj hrun).symm, .asleep hi hasleep⟩
      · obtain ⟨hreason, hheld⟩ := lockMsg_error hrun
        exact ⟨hreason, .newMsgMutex (by rw [hi]; rfl) hheld⟩
    | returning | waitTest | enqueueBroadcast | waitSleep | enqueueUnlock | dequeueUnlock
    | sizeUnlock | enqueueUnlockMsg | waitUnlock =>
      rw [run, hi] at hrun
      cases hrun
    | _ =>
      rw [hi] at hguarded
      cases hguarded

/-- No access meets a NULL pointer, freed memory or a double `free`, and the two mutexes never
block everybody: as long as some thread is inside and not asleep on `new_msg_cond`, some thread
can go on. -/
theorem accesses_never_stuck {guard : QueueAccess → QueueAct → Prop}
    (h : Reaches step guard initial s) :
    (∀ i reason, s.run i = .error reason → reason = .blocked) ∧
      ((∃ i, s.threads i ≠ .outside ∧ ¬ (s.threads i = .waitWake ∧ i ∈ s.newMsgCond)) →
        ∃ i s', s.run i = .ok s' ∨ ∃ n, s.malloc i n = .ok s') := by
  obtain ⟨o, ns, -, htracks⟩ := exists_tracks h
  refine ⟨fun i reason hrun => (htracks.waits hrun).1, fun ⟨i, houtside, hasleep⟩ => ?_⟩
  by_contra hstuck
  push Not at hstuck
  have hwaits : ∀ j, s.Waits j := by
    intro j
    cases hrun : s.run j with
    | ok s' => exact absurd hrun (hstuck j s').1
    | error reason => exact (htracks.waits hrun).2
  have hmsg : s.newMsgMutex = none := by
    by_contra hheld
    obtain ⟨k, hk⟩ := Option.ne_none_iff_exists'.mp hheld
    have hinside := (htracks.newMsgMutex k).mp hk
    cases hwaits k with
    | idle hpoint | malloc hpoint | asleep hpoint =>
      rw [hpoint] at hinside
      cases hinside
    | mutex _ hpoint | newMsgMutex hpoint =>
      rw [hpoint] at hinside
      cases hinside
  have hmutex : s.mutex = none := by
    by_contra hheld
    obtain ⟨j, hj⟩ := Option.ne_none_iff_exists'.mp hheld
    have hinside := (htracks.mutex j).mp hj
    cases hwaits j with
    | idle hpoint | malloc hpoint | asleep hpoint =>
      rw [hpoint] at hinside
      cases hinside
    | mutex hpoint =>
      rw [hpoint] at hinside
      cases hinside
    | newMsgMutex _ htaken => exact htaken hmsg
  cases hwaits i with
  | idle hpoint => exact houtside hpoint
  | malloc hpoint =>
    obtain ⟨s', hmalloc⟩ : ∃ s', s.malloc i s.data.nodes.next = .ok s' := by
      rw [malloc, hpoint]
      exact ⟨_, if_pos (s.data.nodes.fresh _ le_rfl)⟩
    exact (hstuck i s').2 _ hmalloc
  | asleep hpoint hsleeps => exact hasleep ⟨hpoint, hsleeps⟩
  | mutex _ _ hheld => exact hheld hmutex
  | newMsgMutex _ hheld => exact hheld hmsg

/-- In the middle of that run, one thread waits for the mutex and another one has it. -/
theorem accesses_never_stuck_reusedAddress :
    ∃ s, exec step initial (reusedAddress.take 28) = .ok s ∧
      s.threads 0 = .enqueueLock [105] 5 ∧ s.threads 1 = .dequeueLoadSize [104] ∧
      (∀ i reason, s.run i = .error reason → reason = .blocked) ∧
      ∃ i s', s.run i = .ok s' ∨ ∃ n, s.malloc i n = .ok s' := by
  have hobserved : (exec step initial (reusedAddress.take 28)).toOption.map
      (fun s => (s.threads 0, s.threads 1)) =
        some (.enqueueLock [105] 5, .dequeueLoadSize [104]) := by decide +kernel
  obtain ⟨s, hrun, hview⟩ := exec_observed hobserved
  obtain ⟨hzero, hone⟩ := Prod.mk.inj hview
  obtain ⟨hdefined, hgoes⟩ := accesses_never_stuck (reaches_of_exec hrun)
  exact ⟨s, hrun, hzero, hone, hdefined, hgoes ⟨0, by simp [hzero], by simp [hzero]⟩⟩

end QueueAccess

end AmqpBroker
