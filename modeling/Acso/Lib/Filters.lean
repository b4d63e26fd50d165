import Acso.Lib.System
import Acso.Lib.Tally

/-!
# Filters in a line

A process reads, writes or ends; what it does next is fixed by its state, and by what it reads.
`Filters act k s input output`: from `s` it reads all of `input`, writes `output` and ends, in `k`
actions.

In a `Line` each process reads what the one before it writes, through a buffer that holds
`capacity` elements; it finds the end of its input when the buffer is empty and the one before
it has ended.  Where each process filters what the one before it writes, every step of the line
is one action less to take (`Flow.step`), there is a step until all have ended (`Flow.progress`),
and in the end the line has written what its last process writes (`Flow.done`).
-/

namespace Acso.Lib

/-- What a process does next; `none` is the end of its input. -/
inductive Action (β σ : Type)
  | read (next : Option β → σ)
  | write (b : β) (next : σ)
  | exit

variable {β σ : Type}

inductive Filters (act : σ → Action β σ) : Nat → σ → List β → List β → Prop
  | exit {s : σ} (h : act s = .exit) : Filters act 1 s [] []
  | write {k : Nat} {s s' : σ} {b : β} {input output : List β} (h : act s = .write b s')
      (hrest : Filters act k s' input output) : Filters act (k + 1) s input (b :: output)
  | read {k : Nat} {s : σ} {b : β} {next : Option β → σ} {input output : List β}
      (h : act s = .read next) (hrest : Filters act k (next (some b)) input output) :
      Filters act (k + 1) s (b :: input) output
  | eof {k : Nat} {s : σ} {next : Option β → σ} {output : List β} (h : act s = .read next)
      (hrest : Filters act k (next none) [] output) : Filters act (k + 1) s [] output

namespace Filters

variable {act : σ → Action β σ} {k : Nat} {s : σ} {input output : List β}

theorem of_exit (h : Filters act k s input output) (hact : act s = .exit) :
    k = 1 ∧ input = [] ∧ output = [] := by
  cases h with
  | exit => exact ⟨rfl, rfl, rfl⟩
  | write h | read h | eof h => rw [hact] at h; cases h

theorem of_write (h : Filters act k s input output) {b : β} {s' : σ} (hact : act s = .write b s') :
    ∃ k' output', k = k' + 1 ∧ output = b :: output' ∧ Filters act k' s' input output' := by
  cases h with
  | write h hrest =>
    rw [hact] at h
    cases h
    exact ⟨_, _, rfl, rfl, hrest⟩
  | exit h | read h | eof h => rw [hact] at h; cases h

theorem of_read (h : Filters act k s input output) {next : Option β → σ}
    (hact : act s = .read next) :
    ∃ k', k = k' + 1 ∧ Filters act k' (next input.head?) input.tail output := by
  cases h with
  | read h hrest =>
    rw [hact] at h
    cases h
    exact ⟨_, rfl, hrest⟩
  | eof h hrest =>
    rw [hact] at h
    cases h
    exact ⟨_, rfl, hrest⟩
  | exit h | write h => rw [hact] at h; cases h

end Filters

/-! ## Lines -/

/-- `n` processes, of which those that have ended are `none`, and the buffers between them. -/
structure Line (β σ : Type) (n : Nat) where
  running : Fin n → Option σ
  buffers : Nat → List β
  stdin : List β
  stdout : List β

namespace Line

variable {n : Nat} (l : Line β σ n)

/-- The process before `i` has ended. -/
def EndedBefore (i : Fin n) : Prop := ∀ j : Fin n, j.val + 1 = i.val → l.running j = none

instance (i : Fin n) : Decidable (l.EndedBefore i) :=
  inferInstanceAs (Decidable (∀ j : Fin n, _ → l.running j = none))

def goTo (i : Fin n) (p : Option σ) : Line β σ n :=
  { l with running := Function.update l.running i p }

/-- The process `i` reads. -/
def read (i : Fin n) (next : Option β → σ) : Option (Line β σ n) :=
  if i.val = 0 then
    some { l.goTo i (some (next l.stdin.head?)) with stdin := l.stdin.tail }
  else
    match l.buffers (i - 1) with
    | [] => if l.EndedBefore i then some (l.goTo i (some (next none))) else none
    | b :: rest =>
      some { l.goTo i (some (next (some b))) with buffers := Function.update l.buffers (i - 1) rest }

/-- The process `i` writes. -/
def write (capacity : Nat) (i : Fin n) (b : β) (next : σ) : Option (Line β σ n) :=
  if i.val + 1 = n then some { l.goTo i (some next) with stdout := l.stdout ++ [b] }
  else if (l.buffers i).length < capacity then
    some { l.goTo i (some next) with
      buffers := Function.update l.buffers i (l.buffers i ++ [b]) }
  else none

def step (act : σ → Action β σ) (capacity : Nat) (i : Fin n) : Option (Line β σ n) :=
  match l.running i with
  | none => none
  | some p =>
    match act p with
    | .read next => l.read i next
    | .write b next => l.write capacity i b next
    | .exit => some (l.goTo i none)

/-- What is still to be read by the process `i`, where `outs` is still to be written. -/
def pending (outs : Nat → List β) (i : Nat) : List β :=
  if i = 0 then l.stdin else l.buffers (i - 1) ++ outs (i - 1)

end Line

/-! ## What flows -/

/-- A process with `k` actions to take, or none. -/
inductive Stage (act : σ → Action β σ) : Nat → Option σ → List β → List β → Prop
  | running {k : Nat} {p : σ} {input output : List β} (h : Filters act k p input output) :
      Stage act k (some p) input output
  | ended : Stage act 0 none [] []

namespace Stage

variable {act : σ → Action β σ} {k : Nat} {input output : List β}

theorem filters {p : σ} (h : Stage act k (some p) input output) : Filters act k p input output := by
  cases h with
  | running h => exact h

theorem of_none (h : Stage act k none input output) : k = 0 ∧ input = [] ∧ output = [] := by
  cases h with
  | ended => exact ⟨rfl, rfl, rfl⟩

end Stage

/-- Every process filters what is to come into what it is to write, which is `outs`; it has so
many actions to take. -/
structure Flow {n : Nat} (act : σ → Action β σ) (output : List β) (l : Line β σ n)
    (outs : Nat → List β) (left : Fin n → Nat) : Prop where
  stage : ∀ i : Fin n, Stage act (left i) (l.running i) (l.pending outs i) (outs i)
  output : l.stdout ++ outs (n - 1) = output

namespace Flow

variable {n : Nat} {act : σ → Action β σ} {output : List β} {l l' : Line β σ n}
  {outs : Nat → List β} {left : Fin n → Nat} (h : Flow act output l outs left) {i : Fin n}
include h

theorem filters {p : σ} (hp : l.running i = some p) :
    Filters act (left i) p (l.pending outs i) (outs i) := by
  have hstage := h.stage i
  rw [hp] at hstage
  exact hstage.filters

theorem ended (hp : l.running i = none) :
    left i = 0 ∧ l.pending outs i = [] ∧ outs i = [] := by
  have hstage := h.stage i
  rw [hp] at hstage
  exact hstage.of_none

/-- The process `i` has taken an action. -/
theorem next (outs' : Nat → List β) {k : Nat} (hk : left i = k + 1) {p : Option σ}
    (hrunning : l'.running = Function.update l.running i p)
    (hstage : Stage act k p (l'.pending outs' i) (outs' i))
    (hother : ∀ j : Fin n, j ≠ i → l'.pending outs' j = l.pending outs j ∧ outs' j = outs j)
    (hout : l'.stdout ++ outs' (n - 1) = output) :
    ∃ outs left', Flow act output l' outs left' ∧ tally id left = tally id left' + 1 := by
  refine ⟨outs', Function.update left i k, ⟨?_, hout⟩, ?_⟩
  · intro j
    rw [hrunning]
    by_cases hj : j = i
    · subst hj
      rwa [Function.update_self, Function.update_self]
    · obtain ⟨hpending, houts⟩ := hother j hj
      rw [Function.update_of_ne hj, Function.update_of_ne hj, hpending, houts]
      exact h.stage j
  · have htally := tally_update id left i k
    rw [hk] at htally
    simp only [id_eq] at htally
    omega

theorem exit {p : σ} (hp : l.running i = some p) (hact : act p = .exit) :
    ∃ outs left', Flow act output (l.goTo i none) outs left' ∧
      tally id left = tally id left' + 1 := by
  obtain ⟨hk, hinput, hout⟩ := (h.filters hp).of_exit hact
  refine h.next outs hk rfl ?_ (fun j _ => ⟨rfl, rfl⟩) h.output
  have hpending : (l.goTo i none).pending outs i = [] := hinput
  rw [hpending, hout]
  exact .ended

theorem read {p : σ} (hp : l.running i = some p) {next : Option β → σ}
    (hact : act p = .read next) (hstep : l.read i next = some l') :
    ∃ outs left', Flow act output l' outs left' ∧ tally id left = tally id left' + 1 := by
  obtain ⟨k, hk, hfilters⟩ := (h.filters hp).of_read hact
  rw [Line.read] at hstep
  by_cases hfirst : i.val = 0
  · rw [if_pos hfirst] at hstep
    obtain rfl := Option.some.inj hstep
    rw [Line.pending, if_pos hfirst] at hfilters
    refine h.next outs hk rfl ?_ ?_ h.output
    · rw [Line.pending, if_pos hfirst]
      exact .running hfilters
    · intro j hj
      have hj0 : j.val ≠ 0 := fun h0 => hj (Fin.ext (h0.trans hfirst.symm))
      refine ⟨?_, rfl⟩
      rw [Line.pending, Line.pending, if_neg hj0, if_neg hj0]
      rfl
  · rw [if_neg hfirst] at hstep
    rw [Line.pending, if_neg hfirst] at hfilters
    split at hstep
    · rename_i hempty
      split at hstep
      · rename_i hbefore
        obtain rfl := Option.some.inj hstep
        -- the process before it has written all it has to write
        obtain ⟨-, -, houts⟩ := h.ended (hbefore ⟨i - 1, by omega⟩ (by simp only; omega))
        refine h.next outs hk rfl ?_ (fun j _ => ⟨rfl, rfl⟩) h.output
        have hpending : (l.goTo i (some (next none))).pending outs i = [] := by
          rw [Line.pending, if_neg hfirst]
          exact List.append_eq_nil_iff.mpr ⟨hempty, houts⟩
        rw [hempty, houts] at hfilters
        rw [hpending]
        exact .running hfilters
      · cases hstep
    · rename_i b rest hbuffer
      obtain rfl := Option.some.inj hstep
      rw [hbuffer] at hfilters
      refine h.next outs hk rfl ?_ ?_ h.output
      · rw [Line.pending, if_neg hfirst]
        dsimp only [Line.goTo]
        rw [Function.update_self]
        exact .running hfilters
      · intro j hj
        refine ⟨?_, rfl⟩
        rw [Line.pending, Line.pending]
        split
        · rfl
        · have hne : j.val - 1 ≠ i.val - 1 := fun heq => hj (Fin.ext (by omega))
          dsimp only [Line.goTo]
          rw [Function.update_of_ne hne]

theorem write {capacity : Nat} {p : σ} (hp : l.running i = some p) {b : β} {next : σ}
    (hact : act p = .write b next) (hstep : l.write capacity i b next = some l') :
    ∃ outs left', Flow act output l' outs left' ∧ tally id left = tally id left' + 1 := by
  obtain ⟨k, out, hk, hout, hfilters⟩ := (h.filters hp).of_write hact
  have houts : ∀ j : Fin n, j ≠ i → Function.update outs i.val out j = outs j := fun j hj =>
    Function.update_of_ne (fun heq => hj (Fin.ext heq)) _ _
  have hself : ¬ i.val = 0 → i.val - 1 ≠ i.val := fun h0 => by omega
  rw [Line.write] at hstep
  by_cases hlast : i.val + 1 = n
  · rw [if_pos hlast] at hstep
    obtain rfl := Option.some.inj hstep
    have hpending : ∀ j : Fin n, ({ l.goTo i (some next) with stdout := l.stdout ++ [b] } :
        Line β σ n).pending (Function.update outs i.val out) j = l.pending outs j := by
      intro j
      rw [Line.pending, Line.pending]
      split
      · rfl
      · have hne : j.val - 1 ≠ i.val := by omega
        rw [Function.update_of_ne hne]
        rfl
    refine h.next _ hk rfl ?_ (fun j hj => ⟨hpending j, houts j hj⟩) ?_
    · rw [hpending i, Function.update_self]
      exact .running hfilters
    · have hn : n - 1 = i.val := by omega
      have houtput := h.output
      rw [hn, hout] at houtput
      rw [hn, Function.update_self, List.append_assoc]
      exact houtput
  · rw [if_neg hlast] at hstep
    split at hstep
    · obtain rfl := Option.some.inj hstep
      refine h.next (Function.update outs i.val out) hk rfl ?_ ?_ ?_
      · rw [Function.update_self]
        have hpending : ({ l.goTo i (some next) with
            buffers := Function.update l.buffers i (l.buffers i ++ [b]) } : Line β σ n).pending
              (Function.update outs i.val out) i = l.pending outs i := by
          rw [Line.pending, Line.pending]
          split
          · rfl
          · rename_i h0
            dsimp only [Line.goTo]
            rw [Function.update_of_ne (hself h0), Function.update_of_ne (hself h0)]
        rw [hpending]
        exact .running hfilters
      · intro j hj
        refine ⟨?_, houts j hj⟩
        rw [Line.pending, Line.pending]
        split
        · rfl
        · dsimp only [Line.goTo]
          by_cases hnext : j.val - 1 = i.val
          · rw [hnext, Function.update_self, Function.update_self, hout, List.append_assoc]
            rfl
          · rw [Function.update_of_ne hnext, Function.update_of_ne hnext]
      · have hne : n - 1 ≠ i.val := by omega
        rw [Function.update_of_ne hne]
        exact h.output
    · cases hstep

/-- **A step of the line** is one action less to take. -/
theorem step {capacity : Nat} (hstep : l.step act capacity i = some l') :
    ∃ outs left', Flow act output l' outs left' ∧ tally id left = tally id left' + 1 := by
  rw [Line.step] at hstep
  cases hp : l.running i with
  | none =>
    rw [hp] at hstep
    cases hstep
  | some p =>
    rw [hp] at hstep
    dsimp only at hstep
    cases hact : act p with
    | read next =>
      rw [hact] at hstep
      exact h.read hp hact hstep
    | write b next =>
      rw [hact] at hstep
      exact h.write hp hact hstep
    | exit =>
      rw [hact] at hstep
      obtain rfl := Option.some.inj hstep
      exact h.exit hp hact

/-- A process that can read takes a step, or the next one can read. -/
theorem step_or_next {capacity : Nat} (hcapacity : 0 < capacity) (hp : l.running i ≠ none)
    (hread : l.EndedBefore i ∨ l.buffers (i - 1) ≠ []) :
    (l.step act capacity i).isSome ∨
      ∃ j : Fin n, j.val = i.val + 1 ∧ l.running j ≠ none ∧ l.buffers i ≠ [] := by
  obtain ⟨p, hp⟩ := Option.ne_none_iff_exists'.mp hp
  rw [Line.step, hp]
  dsimp only
  cases hact : act p with
  | exit => exact .inl rfl
  | read next =>
    refine .inl ?_
    dsimp only
    rw [Line.read]
    split
    · rfl
    · split
      · rename_i hempty
        rw [if_pos (hread.resolve_right fun hne => hne hempty)]
        rfl
      · rfl
  | write b next =>
    dsimp only
    rw [Line.write]
    by_cases hlast : i.val + 1 = n
    · rw [if_pos hlast]
      exact .inl rfl
    · rw [if_neg hlast]
      by_cases hroom : (l.buffers i).length < capacity
      · rw [if_pos hroom]
        exact .inl rfl
      · have hnonempty : l.buffers i ≠ [] := by
          intro hempty
          rw [hempty] at hroom
          exact hroom hcapacity
        refine .inr ⟨⟨i + 1, by omega⟩, rfl, ?_, hnonempty⟩
        intro hended
        -- it would have read what is in the buffer
        obtain ⟨-, hpending, -⟩ := h.ended hended
        rw [Line.pending, if_neg (Nat.succ_ne_zero _)] at hpending
        exact hnonempty (List.append_eq_nil_iff.mp hpending).1

theorem exists_step {capacity : Nat} (hcapacity : 0 < capacity) (d : Nat) :
    ∀ i : Fin n, n - i ≤ d → l.running i ≠ none → (l.EndedBefore i ∨ l.buffers (i - 1) ≠ []) →
      ∃ j, (l.step act capacity j).isSome := by
  induction d with
  | zero =>
    intro i hd
    omega
  | succ d ih =>
    intro i hd hp hread
    rcases h.step_or_next hcapacity hp hread with hstep | ⟨j, hj, hpj, hbuffer⟩
    · exact ⟨i, hstep⟩
    · refine ih j (by omega) hpj (.inr ?_)
      rwa [hj, Nat.add_sub_cancel]

/-- **There is a step** until all processes have ended. -/
theorem progress {capacity : Nat} (hcapacity : 0 < capacity) (hp : l.running i ≠ none) :
    ∃ j, (l.step act capacity j).isSome := by
  -- the first of those that have not ended finds the end of its input, if nothing else
  have hfirst : ∀ k, ∀ i : Fin n, i.val = k → l.running i ≠ none →
      ∃ j, l.running j ≠ none ∧ l.EndedBefore j := by
    intro k
    induction k with
    | zero =>
      intro i hi hp
      exact ⟨i, hp, fun j hj => by omega⟩
    | succ k ih =>
      intro i hi hp
      by_cases hbefore : l.running ⟨k, by omega⟩ = none
      · refine ⟨i, hp, fun j hj => ?_⟩
        rwa [show j = ⟨k, by omega⟩ from Fin.ext (by simp only; omega)]
      · exact ih _ rfl hbefore
  obtain ⟨j, hpj, hbefore⟩ := hfirst i i rfl hp
  exact h.exists_step hcapacity n j (by omega) hpj (.inl hbefore)

/-- **In the end** everything has been read and written. -/
theorem done (hended : ∀ i, l.running i = none) (hn : 0 < n) :
    l.stdout = output ∧ l.stdin = [] ∧ ∀ j, j + 1 < n → l.buffers j = [] := by
  have hout := h.output
  obtain ⟨-, -, hlast⟩ := h.ended (hended ⟨n - 1, by omega⟩)
  rw [hlast, List.append_nil] at hout
  obtain ⟨-, hfirst, -⟩ := h.ended (hended ⟨0, hn⟩)
  refine ⟨hout, hfirst, ?_⟩
  intro j hj
  obtain ⟨-, hpending, -⟩ := h.ended (hended ⟨j + 1, hj⟩)
  rw [Line.pending, if_neg (Nat.succ_ne_zero _)] at hpending
  exact (List.append_eq_nil_iff.mp hpending).1

end Flow

end Acso.Lib
