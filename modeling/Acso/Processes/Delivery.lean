import Acso.Processes.Ring

/-!
# The number goes round once

Wherever the processes of the ring stand, the number is in one place: not sent yet, in the
pipe of the child `k` hops after `start`, held by that child, or back with the parent
(`Carried`).  The children it has passed are done and those ahead of it read.  The pipe of
the child `start` is read a second time by the parent, but only when every child has been
waited for, so the number in it has gone all the way round.

* `carried_step`: every step keeps this.
* `Carried.progress`: until all is over, some process can go on.
* `ring_delivers`: what every run comes to.
-/

namespace Acso.Processes

open Acso.Lib

/-! ## Where the number is -/

/-- The number after `k` hops. -/
def token (c : BitVec 32) (k : Nat) : BitVec 32 := c + BitVec.ofNat 32 k

/-- The first `k` messages, each with the child that receives it. -/
def messages (n start : Nat) (c : BitVec 32) (k : Nat) : List (Nat × BitVec 32) :=
  (List.range k).map fun j => (hop n (start - 1) j, token c j)

theorem token_zero (c : BitVec 32) : token c 0 = c := by simp [token]

theorem token_succ (c : BitVec 32) (k : Nat) : token c (k + 1) = token c k + 1 := by
  rw [token, token, BitVec.ofNat_add, BitVec.add_assoc]
  rfl

theorem messages_succ (n start : Nat) (c : BitVec 32) (k : Nat) :
    messages n start c (k + 1) =
      messages n start c k ++ [(hop n (start - 1) k, token c k)] := by
  rw [messages, List.range_succ, List.map_append]
  rfl

/-- The child has written. -/
def ChildPc.Done (pc : ChildPc) : Prop := pc = .exiting ∨ pc = .exited ∨ pc = .reaped

def ChildPc.reapings : ChildPc → Nat
  | .reaped => 1
  | .notForked | .reading | .writing _ | .exiting | .exited => 0

theorem ChildPc.reapings_le (pc : ChildPc) : pc.reapings ≤ 1 := by
  cases pc <;> simp [reapings]

theorem ChildPc.reapings_eq_one {pc : ChildPc} : pc.reapings = 1 ↔ pc = .reaped := by
  cases pc <;> simp [reapings]

section places

variable {n : Nat} (start k : Nat) (c : BitVec 32) (log : List (Nat × BitVec 32)) (s : Ring n)

/-- The parent still forks. -/
structure Unsent : Prop where
  forking : ∃ i ≤ n, s.parent = .forking i ∧
    ∀ j : Fin n, s.children j = if j < i then .reading else .notForked
  pipes : s.pipes = fun _ => []
  log : log = []

/-- The number has passed `k` children, and the next one stands at `pc`. -/
structure Passed (pc : ChildPc) : Prop where
  waiting : s.parent = .waiting (tally ChildPc.reapings s.children)
  past : ∀ i : Fin n, hops n (start - 1) i < k → (s.children i).Done
  here : ∀ i : Fin n, hops n (start - 1) i = k → s.children i = pc
  ahead : ∀ i : Fin n, k < hops n (start - 1) i → s.children i = .reading

/-- The number is in a pipe, after `k` hops. -/
structure Queued : Prop extends Passed start k s .reading where
  le : k ≤ n
  pipes : s.pipes = Function.update (fun _ => []) (hop n (start - 1) k) [token c k]
  log : log = messages n start c k

/-- The child `k` hops after `start` has the number. -/
structure Held : Prop extends Passed start k s (.writing (token c (k + 1))) where
  lt : k < n
  pipes : s.pipes = fun _ => []
  log : log = messages n start c (k + 1)

/-- The parent has the number back. -/
structure Home : Prop where
  returned : s.parent = .returned (token c n)
  reaped : ∀ i, s.children i = .reaped
  log : log = messages n start c n

/-- Where the number is, when the children have received `log`. -/
inductive Carried : Prop
  | unsent (h : Unsent log s)
  | queued (k : Nat) (h : Queued start k c log s)
  | held (k : Nat) (h : Held start k c log s)
  | home (h : Home start c log s)

end places

/-! ## The children it has passed -/

namespace Passed

variable {n start k : Nat} {s : Ring n} {pc : ChildPc}

theorem past_of (hp : Passed start k s pc) {i : Fin n} (hpc : s.children i ≠ pc)
    (hread : s.children i ≠ .reading) : hops n (start - 1) i < k := by
  rcases lt_trichotomy (hops n (start - 1) i) k with hlt | heq | hgt
  · exact hlt
  · exact absurd (hp.here i heq) hpc
  · exact absurd (hp.ahead i hgt) hread

/-- A child that has been passed goes on to `pc'`. -/
theorem setChild (hp : Passed start k s pc) {i : Fin n} (hi : hops n (start - 1) i < k)
    {pc' : ChildPc} (hdone : pc'.Done) {ppc : ParentPc}
    (hppc : ppc = .waiting (tally ChildPc.reapings (Function.update s.children i pc'))) :
    Passed start k ((s.setChild i pc').setParent ppc) pc := by
  have hother : ∀ j : Fin n, k ≤ hops n (start - 1) j →
      Function.update s.children i pc' j = s.children j := by
    intro j hj
    refine Function.update_of_ne ?_ _ _
    rintro rfl
    omega
  refine ⟨hppc, ?_, ?_, ?_⟩
  · intro j hj
    simp only [Ring.setParent_children, Ring.setChild_children]
    by_cases hij : j = i
    · subst hij
      rwa [Function.update_self]
    · rw [Function.update_of_ne hij]
      exact hp.past j hj
  · intro j hj
    exact (hother j hj.ge).trans (hp.here j hj)
  · intro j hj
    exact (hother j hj.le).trans (hp.ahead j hj)

theorem exit (hp : Passed start k s pc) {i : Fin n} (hchild : s.children i = .exiting)
    (hpc : pc ≠ .exiting) : Passed start k (s.setChild i .exited) pc := by
  have hi : hops n (start - 1) i < k :=
    hp.past_of (by rw [hchild]; exact hpc.symm) (by rw [hchild]; decide)
  have htally := tally_update ChildPc.reapings s.children i .exited
  simp only [hchild, ChildPc.reapings, Nat.add_zero] at htally
  exact hp.setChild hi (.inr (.inl rfl)) (htally ▸ hp.waiting)

theorem reap (hp : Passed start k s pc) {i : Fin n} {m : Nat} (hparent : s.parent = .waiting m)
    (hchild : s.children i = .exited) (hpc : pc ≠ .exited) :
    Passed start k ((s.setChild i .reaped).setParent (.waiting (m + 1))) pc := by
  have hi : hops n (start - 1) i < k :=
    hp.past_of (by rw [hchild]; exact hpc.symm) (by rw [hchild]; decide)
  have htally := tally_update ChildPc.reapings s.children i .reaped
  simp only [hchild, ChildPc.reapings, Nat.add_zero] at htally
  have hm : m = tally ChildPc.reapings s.children := by
    have hwaiting := hp.waiting
    rw [hparent] at hwaiting
    exact ParentPc.waiting.inj hwaiting
  exact hp.setChild hi (.inr (.inr rfl)) (by rw [htally, hm])

/-- It does not matter here where the number is. -/
theorem setPipe (hp : Passed start k s pc) (p : Nat) (buffers : List (BitVec 32)) :
    Passed start k (s.setPipe p buffers) pc := ⟨hp.waiting, hp.past, hp.here, hp.ahead⟩

/-- The child the number has come to goes on to `pc'`. -/
theorem setHere (hs : start - 1 < n) (hp : Passed start k s pc) {i : Fin n}
    (hi : hops n (start - 1) i = k) {pc' : ChildPc} (hreapings : pc'.reapings = pc.reapings) :
    Passed start k (s.setChild i pc') pc' := by
  have hother : ∀ j : Fin n, hops n (start - 1) j ≠ k →
      Function.update s.children i pc' j = s.children j := by
    intro j hj
    refine Function.update_of_ne ?_ _ _
    rintro rfl
    exact hj hi
  have htally := tally_update ChildPc.reapings s.children i pc'
  rw [hp.here i hi, hreapings, Nat.add_right_cancel_iff] at htally
  refine ⟨htally ▸ hp.waiting, ?_, ?_, ?_⟩
  · intro j hj
    simpa only [Ring.setChild_children, hother j hj.ne] using hp.past j hj
  · intro j hj
    have hji : j = i := by
      rw [Fin.ext_iff, ← hop_hops hs j.isLt, ← hop_hops hs i.isLt, hi, hj]
    rw [hji, Ring.setChild_children, Function.update_self]
  · intro j hj
    exact (hother j hj.ne').trans (hp.ahead j hj)

/-- The number leaves a child that is done. -/
theorem pass (hp : Passed start k s pc) (hdone : pc.Done) : Passed start (k + 1) s .reading := by
  refine ⟨hp.waiting, ?_, fun i hi => hp.ahead i (by omega), fun i hi => hp.ahead i (by omega)⟩
  intro i hi
  rcases Nat.lt_succ_iff_lt_or_eq.mp hi with hlt | heq
  · exact hp.past i hlt
  · rwa [hp.here i heq]

/-- The loop of `waitpid` is over only when every child has been waited for. -/
theorem all_reaped (hp : Passed start k s pc) {m : Nat} (hparent : s.parent = .waiting m)
    (hm : n ≤ m) (i : Fin n) : s.children i = .reaped := by
  have hwaiting := hp.waiting
  rw [hparent] at hwaiting
  have hfull : n ≤ tally ChildPc.reapings s.children := ParentPc.waiting.inj hwaiting ▸ hm
  exact ChildPc.reapings_eq_one.mp ((tally_eq_size ChildPc.reapings_le).mp hfull i)

/-- Until then there is a child to wait for. -/
theorem not_noChild (hp : Passed start k s pc) (hpc : pc ≠ .notForked) {m : Nat}
    (hparent : s.parent = .waiting m) (hm : m < n) : ¬ s.NoChild := by
  intro hno
  have hall : ∀ i, (s.children i).reapings = 1 := by
    intro i
    refine ChildPc.reapings_eq_one.mpr ((hno i).resolve_left fun hnot => ?_)
    have hpast := hp.past_of (by rw [hnot]; exact hpc.symm) (by rw [hnot]; decide)
    have hdone := hp.past i hpast
    rw [hnot] at hdone
    simp [ChildPc.Done] at hdone
  have hfull := (tally_eq_size ChildPc.reapings_le).mpr hall
  have hwaiting := hp.waiting
  rw [hparent] at hwaiting
  rw [← ParentPc.waiting.inj hwaiting] at hfull
  omega

end Passed

/-! ## One step -/

section steps

variable {n start k : Nat} {c : BitVec 32} {log got : List (Nat × BitVec 32)} {s s' : Ring n}

theorem Unsent.step (hs : start - 1 < n) (h : Unsent log s) (hm : RingMoves start c s got s') :
    Carried start c (log ++ got) s' := by
  obtain ⟨m, hm_le, hparent, hchildren⟩ := h.forking
  have hchild : ∀ i, s.children i = .reading ∨ s.children i = .notForked := by
    intro i
    rw [hchildren i]
    split
    · exact .inl rfl
    · exact .inr rfl
  cases hm with
  | fork i hfork =>
    obtain rfl : m = i := ParentPc.forking.inj (hparent.symm.trans hfork)
    refine .unsent ⟨⟨i + 1, i.isLt, rfl, fun j => ?_⟩, h.pipes, by rw [h.log]; rfl⟩
    simp only [Ring.setParent_children, Ring.setChild_children]
    rcases lt_trichotomy j i with hlt | rfl | hgt
    · have hj : j.val < i.val := hlt
      rw [Function.update_of_ne hlt.ne, hchildren, if_pos hj, if_pos (Nat.lt_succ_of_lt hj)]
    · rw [Function.update_self, if_pos (Nat.lt_succ_self _)]
    · have hj : i.val < j.val := hgt
      rw [Function.update_of_ne hgt.ne', hchildren, if_neg (by omega), if_neg (by omega)]
  | send i hfork hi =>
    obtain rfl : m = i := ParentPc.forking.inj (hparent.symm.trans hfork)
    have hread : ∀ i, s.children i = .reading := by
      intro i
      rw [hchildren i, if_pos (by omega)]
    have hnone : tally ChildPc.reapings s.children = 0 :=
      tally_eq_zero.mpr fun i => by rw [hread i]; rfl
    refine .queued 0 ⟨⟨?_, fun i hi => absurd hi (Nat.not_lt_zero _), fun i _ => hread i,
      fun i _ => hread i⟩, Nat.zero_le _, ?_, ?_⟩
    · simp [hnone]
    · rw [hop_zero hs, token_zero]
      simp [h.pipes]
    · rw [h.log]
      rfl
  | read i buffer rest _ hpipe => simp [h.pipes] at hpipe
  | write i buffer hwrite =>
    rcases hchild i with hi | hi <;> rw [hi] at hwrite <;> cases hwrite
  | exit i hexit =>
    rcases hchild i with hi | hi <;> rw [hi] at hexit <;> cases hexit
  | reap _ _ hwait | noChild _ hwait | finish _ _ _ hwait =>
    rw [hparent] at hwait
    cases hwait

/-- The number that is read is the one in the pipe. -/
theorem Queued.eq_of_pipe (h : Queued start k c log s) {p : Nat} {buffer : BitVec 32}
    {rest : List (BitVec 32)} (hpipe : s.pipes p = buffer :: rest) :
    p = hop n (start - 1) k ∧ buffer = token c k ∧ rest = [] := by
  rw [h.pipes, Function.update_apply] at hpipe
  split at hpipe
  · next hp =>
    obtain ⟨hbuffer, hrest⟩ := List.cons.inj hpipe
    exact ⟨hp, hbuffer.symm, hrest.symm⟩
  · cases hpipe

/-- Reading empties all the pipes. -/
theorem Queued.emptied (h : Queued start k c log s) :
    Function.update s.pipes (hop n (start - 1) k) [] = fun _ => [] := by
  rw [h.pipes, Function.update_idem]
  exact Function.update_eq_self (hop n (start - 1) k) (fun _ => ([] : List (BitVec 32)))

theorem Queued.step (hs : start - 1 < n) (h : Queued start k c log s)
    (hm : RingMoves start c s got s') : Carried start c (log ++ got) s' := by
  cases hm with
  | fork _ hfork | send _ hfork =>
    rw [h.waiting] at hfork
    cases hfork
  | read i buffer rest hread hpipe =>
    obtain ⟨hi, rfl, rfl⟩ := h.eq_of_pipe hpipe
    -- after a whole round the first child is done, so it does not read again
    have hk : k < n := by
      refine lt_of_le_of_ne h.le ?_
      rintro rfl
      have hdone := h.past i (hops_lt hs i)
      rw [hread] at hdone
      simp [ChildPc.Done] at hdone
    have hki : k = hops n (start - 1) i := (hop_eq_iff hs i.isLt hk).mp hi.symm
    have hpipes := h.emptied
    rw [← hi] at hpipes
    refine .held k ⟨?_, hk, hpipes, ?_⟩
    · rw [token_succ]
      exact (h.toPassed.setPipe i []).setHere hs hki.symm rfl
    · rw [messages_succ, h.log, hi]
  | write i buffer hwrite =>
    have hlt := h.past_of (i := i) (by rw [hwrite]; simp) (by rw [hwrite]; simp)
    have hdone := h.past i hlt
    rw [hwrite] at hdone
    simp [ChildPc.Done] at hdone
  | exit i hexit =>
    rw [List.append_nil]
    exact .queued k ⟨h.toPassed.exit hexit (by decide), h.le, h.pipes, h.log⟩
  | reap m i hparent hm hexited =>
    rw [List.append_nil]
    exact .queued k ⟨h.toPassed.reap hparent hexited (by decide), h.le, h.pipes, h.log⟩
  | noChild m hparent hm hno =>
    exact absurd hno (h.toPassed.not_noChild (by decide) hparent hm)
  | finish m buffer rest hparent hm hpipe =>
    have hreaped := h.toPassed.all_reaped hparent hm
    have hk : k = n := by
      by_contra hne
      have hk : k < n := lt_of_le_of_ne h.le hne
      have hread := h.here ⟨hop n (start - 1) k, hop_lt hs k⟩ (hops_hop hs hk)
      rw [hreaped] at hread
      cases hread
    subst hk
    obtain ⟨-, rfl, -⟩ := h.eq_of_pipe hpipe
    rw [List.append_nil]
    exact .home ⟨rfl, hreaped, h.log⟩

theorem Held.step (hstart : 1 ≤ start) (hn : start ≤ n) (h : Held start k c log s)
    (hm : RingMoves start c s got s') : Carried start c (log ++ got) s' := by
  have hs : start - 1 < n := by omega
  have hhere : s.children ⟨hop n (start - 1) k, hop_lt hs k⟩ = .writing (token c (k + 1)) :=
    h.here _ (hops_hop hs h.lt)
  cases hm with
  | fork _ hfork | send _ hfork =>
    rw [h.waiting] at hfork
    cases hfork
  | read i buffer rest _ hpipe => simp [h.pipes] at hpipe
  | write i buffer hwrite =>
    have hi : hops n (start - 1) i = k := by
      rcases lt_trichotomy (hops n (start - 1) i) k with hlt | heq | hgt
      · have hdone := h.past i hlt
        rw [hwrite] at hdone
        simp [ChildPc.Done] at hdone
      · exact heq
      · have hread := h.ahead i hgt
        rw [hwrite] at hread
        cases hread
    obtain rfl : token c (k + 1) = buffer :=
      ChildPc.writing.inj ((h.here i hi).symm.trans hwrite)
    have hto : writesTo n start i = hop n (start - 1) (k + 1) := by
      rw [writesTo_eq hstart hn, hop_succ, (hop_eq_iff hs i.isLt h.lt).mpr hi.symm, next]
    rw [List.append_nil]
    have hexiting : Passed start k
        ((s.write (writesTo n start i) (token c (k + 1))).setChild i .exiting) .exiting :=
      (h.toPassed.setPipe _ _).setHere hs hi rfl
    refine .queued (k + 1) ⟨hexiting.pass (.inl rfl), h.lt, ?_, h.log⟩
    simp [hto, h.pipes]
  | exit i hexit =>
    rw [List.append_nil]
    exact .held k ⟨h.toPassed.exit hexit (by simp), h.lt, h.pipes, h.log⟩
  | reap m i hparent hm hexited =>
    rw [List.append_nil]
    exact .held k ⟨h.toPassed.reap hparent hexited (by simp), h.lt, h.pipes, h.log⟩
  | noChild m hparent hm hno =>
    exact absurd hno (h.toPassed.not_noChild (by simp) hparent hm)
  | finish m buffer rest hparent hm hpipe => simp [h.pipes] at hpipe

theorem Home.step (h : Home start c log s) (hm : RingMoves start c s got s') : False := by
  cases hm with
  | fork _ hparent | send _ hparent | reap _ _ hparent | noChild _ hparent
  | finish _ _ _ hparent =>
    rw [h.returned] at hparent
    cases hparent
  | read i _ _ hchild | write i _ hchild | exit i hchild =>
    rw [h.reaped i] at hchild
    cases hchild

/-- **Every step carries the number on.** -/
theorem carried_step (hstart : 1 ≤ start) (hn : start ≤ n) (h : Carried start c log s)
    (hm : RingMoves start c s got s') : Carried start c (log ++ got) s' := by
  have hs : start - 1 < n := by omega
  cases h with
  | unsent h => exact h.step hs hm
  | queued k h => exact h.step hs hm
  | held k h => exact h.step hstart hn hm
  | home h => exact (h.step hm).elim

end steps

/-! ## No process blocks -/

/-- The steps a child has left. -/
def ChildPc.left : ChildPc → Nat
  | .notForked => 5
  | .reading => 4
  | .writing _ => 3
  | .exiting => 2
  | .exited => 1
  | .reaped => 0

/-- The steps the parent has left, beside its calls of `fork` and `waitpid`. -/
def ParentPc.left : ParentPc → Nat
  | .forking _ => 2
  | .waiting _ => 1
  | .returned _ => 0

namespace Ring

variable {n : Nat}

def left (s : Ring n) : Nat := tally ChildPc.left s.children + s.parent.left

/-- Every child has been waited for and the parent has its number. -/
def Finished (s : Ring n) : Prop :=
  (∃ buffer, s.parent = .returned buffer) ∧ ∀ i, s.children i = .reaped

theorem left_setPipe (s : Ring n) (p : Nat) (buffers : List (BitVec 32)) :
    (s.setPipe p buffers).left = s.left := rfl

theorem left_write (s : Ring n) (p : Nat) (buffer : BitVec 32) :
    (s.write p buffer).left = s.left := rfl

theorem left_setChild (s : Ring n) (i : Fin n) (pc : ChildPc) :
    (s.setChild i pc).left + (s.children i).left = s.left + pc.left := by
  have htally := tally_update ChildPc.left s.children i pc
  simp only [left, setChild_children, setChild_parent]
  omega

theorem left_setParent (s : Ring n) (pc : ParentPc) :
    (s.setParent pc).left + s.parent.left = s.left + pc.left := by
  simp only [left, setParent_children, setParent_parent]
  omega

theorem left_init (n : Nat) : (init n).left = 5 * n + 2 := by
  have hsum : tally ChildPc.left (init n).children = n * 5 := by
    simp [tally, init, ChildPc.left]
  rw [left, hsum, Nat.mul_comm]
  rfl

end Ring

section progress

variable {n start k : Nat} {c : BitVec 32} {log got : List (Nat × BitVec 32)} {s s' : Ring n}

theorem Carried.not_noChild (h : Carried start c log s) {m : Nat}
    (hparent : s.parent = .waiting m) (hm : m < n) : ¬ s.NoChild := by
  cases h with
  | unsent h =>
    obtain ⟨_, _, hfork, _⟩ := h.forking
    rw [hparent] at hfork
    cases hfork
  | queued k h => exact h.toPassed.not_noChild (by decide) hparent hm
  | held k h => exact h.toPassed.not_noChild (by simp) hparent hm
  | home h =>
    have hreturned := h.returned
    rw [hparent] at hreturned
    cases hreturned

/-- While the parent forks, the next child has not been forked. -/
theorem Carried.notForked (h : Carried start c log s) {i : Fin n}
    (hparent : s.parent = .forking i) : s.children i = .notForked := by
  cases h with
  | unsent h =>
    obtain ⟨m, _, hfork, hchildren⟩ := h.forking
    obtain rfl : m = i := ParentPc.forking.inj (hfork.symm.trans hparent)
    rw [hchildren, if_neg (Nat.lt_irrefl _)]
  | queued k h | held k h =>
    have hwaiting := h.waiting
    rw [hparent] at hwaiting
    cases hwaiting
  | home h =>
    have hreturned := h.returned
    rw [hparent] at hreturned
    cases hreturned

/-- Every step is one step less. -/
theorem left_step (h : Carried start c log s) (hm : RingMoves start c s got s') :
    s'.left + 1 = s.left := by
  cases hm with
  | fork i hparent =>
    have hchild := s.left_setChild i .reading
    have hfork := (s.setChild i .reading).left_setParent (.forking (i + 1))
    rw [h.notForked hparent] at hchild
    rw [Ring.setChild_parent, hparent] at hfork
    simp only [ChildPc.left, ParentPc.left] at hchild hfork
    omega
  | send i hparent hi =>
    have hsend := (s.write (start - 1) c).left_setParent (.waiting 0)
    rw [Ring.write_parent, Ring.left_write, hparent] at hsend
    simp only [ParentPc.left] at hsend
    omega
  | read i buffer rest hchild hpipe =>
    have hread := (s.setPipe i rest).left_setChild i (.writing (buffer + 1))
    rw [Ring.setPipe_children, Ring.left_setPipe, hchild] at hread
    simp only [ChildPc.left] at hread
    omega
  | write i buffer hchild =>
    have hwrite := (s.write (writesTo n start i) buffer).left_setChild i .exiting
    rw [Ring.write_children, Ring.left_write, hchild] at hwrite
    simp only [ChildPc.left] at hwrite
    omega
  | exit i hchild =>
    have hexit := s.left_setChild i .exited
    rw [hchild] at hexit
    simp only [ChildPc.left] at hexit
    omega
  | reap k i hparent hk hchild =>
    have hexited := s.left_setChild i .reaped
    have hreap := (s.setChild i .reaped).left_setParent (.waiting (k + 1))
    rw [hchild] at hexited
    rw [Ring.setChild_parent, hparent] at hreap
    simp only [ChildPc.left, ParentPc.left] at hexited hreap
    omega
  | noChild k hparent hk hno => exact absurd hno (h.not_noChild hparent hk)
  | finish k buffer rest hparent hk hpipe =>
    have hfinish := (s.setPipe (start - 1) rest).left_setParent (.returned buffer)
    rw [Ring.setPipe_parent, Ring.left_setPipe, hparent] at hfinish
    exact hfinish

/-! Whose turn it is, by where the number is. -/

theorem Unsent.enabled (h : Unsent log s) :
    ∃ l, ((ringSystem n start c).step s l).isSome := by
  obtain ⟨m, _, hparent, _⟩ := h.forking
  refine ⟨.parent, ?_⟩
  by_cases hm : m < n <;> simp [ringSystem, Ring.step, Ring.parentStep, hparent, hm]

theorem Held.enabled (hs : start - 1 < n) (h : Held start k c log s) :
    ∃ l, ((ringSystem n start c).step s l).isSome := by
  have hchild := h.here ⟨hop n (start - 1) k, hop_lt hs k⟩ (hops_hop hs h.lt)
  refine ⟨.child ⟨hop n (start - 1) k, hop_lt hs k⟩, ?_⟩
  simp [ringSystem, Ring.step, Ring.childStep, hchild]

theorem Queued.enabled (hs : start - 1 < n) (h : Queued start k c log s) :
    ∃ l, ((ringSystem n start c).step s l).isSome := by
  rcases lt_or_eq_of_le h.le with hk | rfl
  · have hchild := h.here ⟨hop n (start - 1) k, hop_lt hs k⟩ (hops_hop hs hk)
    refine ⟨.child ⟨hop n (start - 1) k, hop_lt hs k⟩, ?_⟩
    simp [ringSystem, Ring.step, Ring.childStep, hchild, h.pipes]
  · have hdone : ∀ i, (s.children i).Done := fun i => h.past i (hops_lt hs i)
    -- the whole round is over: the children exit, the parent waits for them and reads
    by_cases hreaped : ∀ i, s.children i = .reaped
    · have hfull := (tally_eq_size ChildPc.reapings_le).mpr fun i =>
        ChildPc.reapings_eq_one.mpr (hreaped i)
      exact ⟨.parent, by simp [ringSystem, Ring.step, Ring.parentStep, h.waiting, h.pipes,
        hop_size hs, Nat.not_lt.mpr hfull]⟩
    · obtain ⟨i, hi⟩ := not_forall.mp hreaped
      rcases hdone i with hexiting | hexited | hreaped
      · exact ⟨.child i, by simp [ringSystem, Ring.step, Ring.childStep, hexiting]⟩
      · have hm : tally ChildPc.reapings s.children < k := by
          by_contra hm
          exact hi (h.toPassed.all_reaped h.waiting (Nat.not_lt.mp hm) i)
        exact ⟨.reap i, by simp [ringSystem, Ring.step, Ring.reapStep, h.waiting, hexited, hm]⟩
      · exact absurd hreaped hi

/-- **Until all is over, some process can go on.** -/
theorem Carried.progress (hs : start - 1 < n) (h : Carried start c log s)
    (hgoing : ¬ s.Finished) : ∃ l, ((ringSystem n start c).step s l).isSome := by
  cases h with
  | unsent h => exact h.enabled
  | queued k h => exact h.enabled hs
  | held k h => exact h.enabled hs
  | home h => exact absurd ⟨⟨_, h.returned⟩, h.reaped⟩ hgoing

end progress

/-! ## Every run -/

/-- The child has received its message. -/
def ChildPc.hasRead : ChildPc → Bool
  | .notForked | .reading => false
  | .writing _ | .exiting | .exited | .reaped => true

theorem ChildPc.Done.hasRead {pc : ChildPc} (h : pc.Done) : pc.hasRead = true := by
  rcases h with rfl | rfl | rfl <;> rfl

section runs

variable {n start k : Nat} {c : BitVec 32} {log : List (Nat × BitVec 32)} {s : Ring n}

/-- Among the first `k` messages a child has one, if it is less than `k` hops away. -/
theorem messages_filter (hs : start - 1 < n) (hk : k ≤ n) (i : Fin n) :
    (messages n start c k).filter (fun m => m.1 = i.val) =
      if hops n (start - 1) i < k then [(i.val, token c (hops n (start - 1) i))] else [] := by
  induction k with
  | zero => simp [messages]
  | succ k ih =>
    have hhop := hop_eq_iff hs i.isLt (show k < n by omega)
    rw [messages_succ, List.filter_append, ih (by omega)]
    by_cases hki : k = hops n (start - 1) i
    · have hi : hop n (start - 1) k = i := hhop.mpr hki
      simp [← hki, hi]
    · have hi : hop n (start - 1) k ≠ i := fun hi => hki (hhop.mp hi)
      have hlt : hops n (start - 1) i < k + 1 ↔ hops n (start - 1) i < k := by omega
      simp [hi, hlt]

/-- **A child that has read has received the message that was meant for it.** -/
theorem Carried.received (hs : start - 1 < n) (h : Carried start c log s) (i : Fin n) :
    log.filter (fun m => m.1 = i.val) =
      if (s.children i).hasRead then [(i.val, token c (hops n (start - 1) i))] else [] := by
  cases h with
  | unsent h =>
    obtain ⟨m, _, _, hchildren⟩ := h.forking
    rw [h.log, hchildren i]
    split <;> rfl
  | queued k h =>
    rw [h.log, messages_filter hs h.le]
    by_cases hi : hops n (start - 1) i < k
    · rw [if_pos hi, if_pos (h.past i hi).hasRead]
    · have hread : s.children i = .reading := by
        rcases Nat.eq_or_lt_of_not_lt hi with heq | hgt
        · exact h.here i heq
        · exact h.ahead i hgt
      rw [if_neg hi, hread]
      rfl
  | held k h =>
    rw [h.log, messages_filter hs h.lt]
    rcases lt_trichotomy (hops n (start - 1) i) k with hlt | heq | hgt
    · rw [if_pos (by omega), if_pos (h.past i hlt).hasRead]
    · rw [if_pos (by omega), h.here i heq]
      rfl
    · rw [if_neg (by omega), h.ahead i hgt]
      rfl
  | home h =>
    rw [h.log, messages_filter hs le_rfl, if_pos (hops_lt hs i), h.reaped i]
    rfl

theorem Carried.returned (h : Carried start c log s) {buffer : BitVec 32}
    (hparent : s.parent = .returned buffer) :
    buffer = token c n ∧ ∀ i, s.children i = .reaped := by
  cases h with
  | unsent h =>
    obtain ⟨_, _, hfork, _⟩ := h.forking
    rw [hparent] at hfork
    cases hfork
  | queued k h | held k h =>
    have hwaiting := h.waiting
    rw [hparent] at hwaiting
    cases hwaiting
  | home h => exact ⟨ParentPc.returned.inj (hparent.symm.trans h.returned), h.reaped⟩

theorem carried_init (n start : Nat) (c : BitVec 32) : Carried start c [] (Ring.init n) := by
  refine .unsent ⟨⟨0, Nat.zero_le n, rfl, fun j => ?_⟩, rfl, rfl⟩
  rw [if_neg (Nat.not_lt_zero _)]
  rfl

theorem carried_run (hstart : 1 ≤ start) (hn : start ≤ n) {ls : List (RingLabel n)}
    (hrun : (ringSystem n start c).run (Ring.init n) ls = some s) :
    Carried start c ((ringSystem n start c).log Ring.received (Ring.init n) ls) s := by
  have hstep : ∀ log s l s', Carried start c log s → (ringSystem n start c).step s l = some s' →
      Carried start c (log ++ s.received l) s' :=
    fun _ _ _ _ h hs' => carried_step hstart hn h (moves_of_step hs')
  exact (ringSystem n start c).log_invariant hstep (carried_init n start c) hrun

/-- No run is longer than the program. -/
theorem run_length (hstart : 1 ≤ start) (hn : start ≤ n) {ls : List (RingLabel n)}
    (hrun : (ringSystem n start c).run (Ring.init n) ls = some s) :
    ls.length + s.left = 5 * n + 2 := by
  rw [← Ring.left_init n]
  refine (ringSystem n start c).length_add_measure (fun s => ∃ log, Carried start c log s)
    Ring.left ?_ ?_ ⟨[], carried_init n start c⟩ hrun
  · rintro s l s' ⟨log, h⟩ hstep
    exact ⟨_, carried_step hstart hn h (moves_of_step hstep)⟩
  · rintro s l s' ⟨log, h⟩ hstep
    exact left_step h (moves_of_step hstep)

/-- **The ring delivers.**  In every run of the ring, however the processes take turns: a child
that has read has received one message, and it is `c` plus the hops from the child `start`;
what the parent reads in the end is `c + n`, when every child has been waited for; until then
some process can go on; and no run has more than `5 * n + 2` steps. -/
theorem ring_delivers {n start : Nat} (hstart : 1 ≤ start) (hn : start ≤ n) (c : BitVec 32)
    {ls : List (RingLabel n)} {s : Ring n}
    (hrun : (ringSystem n start c).run (Ring.init n) ls = some s) :
    (∀ i : Fin n,
      ((ringSystem n start c).log Ring.received (Ring.init n) ls).filter (fun m => m.1 = i.val) =
        if (s.children i).hasRead then
          [(i.val, c + BitVec.ofNat 32 (hops n (start - 1) i))]
        else []) ∧
      (∀ buffer, s.parent = .returned buffer →
        buffer = c + BitVec.ofNat 32 n ∧ ∀ i, s.children i = .reaped) ∧
      (¬ s.Finished → ∃ l, ((ringSystem n start c).step s l).isSome) ∧
      ls.length ≤ 5 * n + 2 := by
  have hs : start - 1 < n := by omega
  have hcarried := carried_run hstart hn hrun
  have hlength := run_length hstart hn hrun
  exact ⟨hcarried.received hs, fun _ hparent => hcarried.returned hparent,
    hcarried.progress hs, by omega⟩

/-- A run of two children in which the second one starts. -/
def secondStarts : List (RingLabel 2) :=
  let first : Fin 2 := ⟨0, Nat.two_pos⟩
  let second : Fin 2 := ⟨1, Nat.one_lt_two⟩
  [.parent, .parent, .parent, .child second, .child second, .child first, .child first,
    .child first, .child second, .reap second, .reap first, .parent]

theorem secondStarts_delivers :
    ∃ s, (ringSystem 2 2 7).run (Ring.init 2) secondStarts = some s ∧
      s.parent = .returned 9 ∧ 9 = 7 + BitVec.ofNat 32 2 ∧ ∀ i, s.children i = .reaped := by
  refine ⟨_, rfl, rfl, ?_⟩
  have hrun : (ringSystem 2 2 7).run (Ring.init 2) secondStarts = some _ := rfl
  exact (ring_delivers (by decide) (by decide) 7 hrun).2.1 9 rfl

end runs

end Acso.Processes
