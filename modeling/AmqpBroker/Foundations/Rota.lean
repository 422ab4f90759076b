import AmqpBroker.Foundations.Rotation

/-!
# Turns in rounds

The members of a rota take turns in the order in which they joined. Those that have had
their turn in the current round come first, then those that still wait for it, and the first
of these has the turn. Who comes next is the order of the circle read from there.
-/

namespace Foundations

/-- Who has had the turn in this round and who still waits for it; a round in which nobody
waits is over. -/
@[ext]
structure Rota (ι : Type) where
  served : List ι
  waiting : List ι
  nodup : (served ++ waiting).Nodup
  started : waiting = [] → served = []

namespace Rota

variable {ι : Type}

/-- The members in the order in which they joined. -/
def members (r : Rota ι) : List ι := r.served ++ r.waiting

/-- Who has the turn. -/
def holder (r : Rota ι) : Option ι := r.waiting.head?

/-- The members in the order in which they get the turn from now on. -/
def round (r : Rota ι) : List ι := r.waiting ++ r.served

/-- Nobody takes turns. -/
def empty : Rota ι := ⟨[], [], List.nodup_nil, fun _ => rfl⟩

/-- A rota with these members, with a new round if nobody waits. -/
def rewind (served waiting : List ι) (h : (served ++ waiting).Nodup) : Rota ι :=
  match waiting with
  | [] => ⟨[], served, by simpa using h, fun _ => rfl⟩
  | t :: rest => ⟨served, t :: rest, h, fun hnone => by cases hnone⟩

/-- A new member waits behind the others. -/
def join (r : Rota ι) (t : ι) (h : t ∉ r.members) : Rota ι where
  served := r.served
  waiting := r.waiting ++ [t]
  nodup := by
    rw [← List.append_assoc]
    exact r.nodup.append (List.nodup_singleton t) (by simpa [members] using h)
  started := by simp

/-- The turn goes on to the next member. -/
def pass (r : Rota ι) : Rota ι :=
  match h : r.waiting with
  | [] => r
  | t :: rest => rewind (r.served ++ [t]) rest (by simpa [h] using r.nodup)

/-- A member leaves, and the turn goes on if it had it. -/
def leave [DecidableEq ι] (r : Rota ι) (t : ι) : Rota ι :=
  rewind (r.served.erase t) (r.waiting.erase t)
    (r.nodup.sublist ((List.erase_sublist).append List.erase_sublist))

variable {r : Rota ι} {s t : ι} {rest served waiting : List ι}

/-- Nobody is on the empty rota. -/
@[simp] theorem members_empty : (empty : Rota ι).members = [] := rfl

/-- The members of a rota, given in two parts. -/
@[simp] theorem members_rewind (h : (served ++ waiting).Nodup) :
    (rewind served waiting h).members = served ++ waiting := by
  cases waiting with
  | nil => simp [rewind, members]
  | cons t rest => rfl

/-- Who is next on a rota that is given in two parts. -/
@[simp] theorem round_rewind (h : (served ++ waiting).Nodup) :
    (rewind served waiting h).round = waiting ++ served := by
  cases waiting with
  | nil => simp [rewind, round]
  | cons t rest => rfl

/-- A new member comes last. -/
@[simp] theorem members_join (h : t ∉ r.members) : (r.join t h).members = r.members ++ [t] := by
  simp [join, members]

/-- Passing the turn on keeps the members. -/
@[simp] theorem members_pass (r : Rota ι) : r.pass.members = r.members := by
  unfold pass
  split
  · rfl
  · rename_i t rest h
    rw [members_rewind]
    simp [members, h]

/-- The same members read from the one that has the turn. -/
theorem round_perm (r : Rota ι) : r.round.Perm r.members := List.perm_append_comm

/-- Everybody is in the round. -/
theorem mem_round : t ∈ r.round ↔ t ∈ r.members := r.round_perm.mem_iff

/-- Nobody is in the round twice. -/
theorem round_nodup (r : Rota ι) : r.round.Nodup := r.round_perm.nodup_iff.mpr r.nodup

/-- The first of the round has the turn. -/
theorem holder_eq (r : Rota ι) : r.holder = r.round.head? := by
  cases h : r.waiting with
  | nil => simp [holder, round, h, r.started h]
  | cons t rest => simp [holder, round, h]

/-- The round begins with the one that has the turn. -/
theorem round_of_holder (h : r.holder = some t) : ∃ rest, r.round = t :: rest := by
  rw [holder_eq] at h
  obtain ⟨rest, hrest⟩ := List.head?_eq_some_iff.mp h
  exact ⟨rest, hrest⟩

/-- The turn is with a member. -/
theorem mem_of_holder (h : r.holder = some t) : t ∈ r.members := by
  obtain ⟨rest, hrest⟩ := round_of_holder h
  rw [← mem_round, hrest]
  exact List.mem_cons_self

/-- Somebody has the turn as long as there are members. -/
theorem exists_holder (h : r.members ≠ []) : ∃ t, r.holder = some t := by
  rw [holder_eq]
  cases hround : r.round with
  | nil =>
    have hperm := r.round_perm
    rw [hround] at hperm
    exact absurd hperm.nil_eq.symm h
  | cons t rest => exact ⟨t, rfl⟩

/-- The circle of the members, read from the one that has the turn. -/
theorem readsFrom (h : r.holder = some t) : ReadsFrom r.members t r.round := by
  obtain ⟨rest, hrest⟩ := List.head?_eq_some_iff.mp h
  exact ⟨r.served, rest, by simp [members, hrest], by simp [round, hrest]⟩

/-- Passing the turn on moves the first of the round to its end. -/
theorem round_pass (h : r.round = t :: rest) : r.pass.round = rest ++ [t] := by
  unfold pass
  split
  · rename_i hnone
    rw [round, hnone, r.started hnone] at h
    cases h
  · rename_i s waiting hwaiting
    rw [round, hwaiting] at h
    obtain ⟨rfl, rfl⟩ := List.cons.inj h
    simp

/-- A new member changes nothing in the order of the others. -/
theorem round_join (h : t ∉ r.members) : r.round.Sublist (r.join t h).round := by
  change (r.waiting ++ r.served).Sublist (r.waiting ++ [t] ++ r.served)
  exact (List.sublist_append_left r.waiting [t]).append (List.Sublist.refl r.served)

/-- A new member does not get the turn while somebody else is there. -/
theorem holder_join (h : t ∉ r.members) (hs : r.holder = some s) : (r.join t h).holder = some s := by
  obtain ⟨rest, hrest⟩ := List.head?_eq_some_iff.mp hs
  simp [holder, join, hrest]

/-! ## The order of the next gains -/

/-- The members in the order in which they will gain something, if the one that has the turn
gains once before it passes the turn on, and has done so already if `dealt`. -/
def upcoming (r : Rota ι) (dealt : Bool) : List ι := if dealt then r.pass.round else r.round

/-- Before the gain the round is the order to come. -/
@[simp] theorem upcoming_false (r : Rota ι) : r.upcoming false = r.round := rfl

/-- After the gain the one that has the turn comes last. -/
@[simp] theorem upcoming_true (r : Rota ι) : r.upcoming true = r.pass.round := rfl

/-- The order to come has the members, each once. -/
theorem upcoming_perm (r : Rota ι) (dealt : Bool) : (r.upcoming dealt).Perm r.members := by
  cases dealt with
  | false => exact r.round_perm
  | true =>
    rw [upcoming_true, ← r.members_pass]
    exact r.pass.round_perm

/-- Everybody is in the order to come. -/
theorem mem_upcoming {dealt : Bool} : t ∈ r.upcoming dealt ↔ t ∈ r.members :=
  (r.upcoming_perm dealt).mem_iff

/-- Of two members one comes first. -/
theorem before_or_before (dealt : Bool) (hs : s ∈ r.members) (ht : t ∈ r.members) (hne : s ≠ t) :
    [s, t].Sublist (r.upcoming dealt) ∨ [t, s].Sublist (r.upcoming dealt) := by
  obtain ⟨before, after, hsplit⟩ := List.append_of_mem (mem_upcoming.mpr hs)
  have hmem : t ∈ r.upcoming dealt := mem_upcoming.mpr ht
  rw [hsplit] at hmem ⊢
  obtain hbefore | hafter := List.mem_append.mp hmem
  · right
    change ([t] ++ [s]).Sublist _
    exact (List.singleton_sublist.mpr hbefore).append (List.singleton_sublist.mpr List.mem_cons_self)
  · obtain rfl | hafter := List.mem_cons.mp hafter
    · exact absurd rfl hne
    · left
      exact ((List.singleton_sublist.mpr hafter).cons_cons s).trans (List.sublist_append_right before _)

/-- A new member does not come between two others. -/
theorem before_join {dealt : Bool} {x : ι} (hnew : x ∉ r.members) (hs : s ∈ r.members)
    (h : [s, t].Sublist (r.upcoming dealt)) : [s, t].Sublist ((r.join x hnew).upcoming dealt) := by
  have hround := round_join hnew
  cases dealt with
  | false => exact h.trans hround
  | true =>
    obtain ⟨holder, hholder⟩ := exists_holder (List.ne_nil_of_mem hs)
    obtain ⟨rest, hrest⟩ := round_of_holder hholder
    obtain ⟨rest', hrest'⟩ := round_of_holder (holder_join hnew hholder)
    rw [upcoming_true, round_pass hrest] at h
    rw [upcoming_true, round_pass hrest']
    rw [hrest, hrest'] at hround
    exact h.trans (hround.of_cons_cons.append (List.Sublist.refl [holder]))

/-- The gain puts the one that has the turn behind all others. -/
theorem before_gain (hturn : r.holder = some s) (ht : t ∈ r.members) (hne : s ≠ t) :
    [t, s].Sublist (r.upcoming true) := by
  obtain ⟨rest, hrest⟩ := round_of_holder hturn
  have hmem : t ∈ r.round := mem_round.mpr ht
  rw [hrest] at hmem
  rw [upcoming_true, round_pass hrest]
  exact before_of_passed ((List.mem_cons.mp hmem).resolve_left hne.symm)

/-- Two others keep their order when the one that has the turn gains. -/
theorem before_gain_of_ne {x : ι} (hturn : r.holder = some x) (hne : x ≠ s)
    (h : [s, t].Sublist (r.upcoming false)) : [s, t].Sublist (r.upcoming true) := by
  obtain ⟨rest, hrest⟩ := round_of_holder hturn
  rw [upcoming_false, hrest] at h
  rw [upcoming_true, round_pass hrest]
  exact before_of_pass h hne

/-- The one that has the turn comes after nobody. -/
theorem eq_of_before_holder (hturn : r.holder = some t) (h : [s, t].Sublist (r.upcoming false)) :
    s = t := by
  obtain ⟨rest, hrest⟩ := round_of_holder hturn
  rw [upcoming_false, hrest] at h
  exact not_before_head h (hrest ▸ r.round_nodup)

variable [DecidableEq ι]

/-- A member leaves and the others keep their order. -/
theorem members_leave (r : Rota ι) (t : ι) : (r.leave t).members = r.members.erase t := by
  rw [leave, members_rewind, members]
  by_cases hserved : t ∈ r.served
  · have hwaiting : t ∉ r.waiting := fun hmem => (List.disjoint_of_nodup_append r.nodup) hserved hmem
    rw [List.erase_append_left _ hserved, List.erase_of_not_mem hwaiting]
  · rw [List.erase_append_right _ hserved, List.erase_of_not_mem hserved]

/-- The others keep their order when a member leaves. -/
theorem round_leave (r : Rota ι) (t : ι) : (r.leave t).round = r.round.erase t := by
  rw [leave, round_rewind, round]
  by_cases hwaiting : t ∈ r.waiting
  · have hserved : t ∉ r.served := fun hmem => (List.disjoint_of_nodup_append r.nodup) hmem hwaiting
    rw [List.erase_append_left _ hwaiting, List.erase_of_not_mem hserved]
  · rw [List.erase_append_right _ hwaiting, List.erase_of_not_mem hwaiting]

/-- A member that leaves changes nothing in the order of two others, unless it has gained and
not passed the turn on. -/
theorem before_leave {dealt : Bool} {x : ι} (hturn : r.holder = some x → dealt = false)
    (hs : s ∈ r.members) (hxs : x ≠ s) (hxt : x ≠ t) (h : [s, t].Sublist (r.upcoming dealt)) :
    [s, t].Sublist ((r.leave x).upcoming dealt) := by
  have hpair : [s, t].erase x = [s, t] := by
    apply List.erase_of_not_mem
    simp [hxs, hxt]
  have hkept := h.erase x
  rw [hpair] at hkept
  cases dealt with
  | false =>
    rw [upcoming_false, round_leave]
    exact hkept
  | true =>
    obtain ⟨holder, hholder⟩ := exists_holder (List.ne_nil_of_mem hs)
    obtain ⟨rest, hrest⟩ := round_of_holder hholder
    have hne : holder ≠ x := by
      rintro rfl
      cases hturn hholder
    have hround : (r.leave x).round = holder :: rest.erase x := by
      rw [round_leave, hrest, List.erase_cons_tail (by simpa using hne)]
    rw [upcoming_true, round_pass hrest] at h hkept
    rw [upcoming_true, round_pass hround]
    by_cases hmem : x ∈ rest
    · rwa [List.erase_append_left _ hmem] at hkept
    · rw [List.erase_of_not_mem hmem]
      exact h

end Rota

end Foundations
