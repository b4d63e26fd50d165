import Mathlib.Data.Fintype.Card
import Mathlib.Logic.Relation

/-!
# Trees unfolded from a graph

A graph with labelled edges, seen from a node, is a tree of paths.  `Walk` says where the
labels of a path lead, and `Preorder` lists paths with their ends, each path before those
that go on from it.  A preorder has every path (`Preorder.mem_iff`) and has it once
(`Preorder.nodup`).  From a finite set of nodes without cycles no walk goes on for ever
(`acc_of_acyclic`).  A preorder of the image of a graph is the image of one of the graph
(`Preorder.of_map`).
-/

namespace Acso.Lib

variable {ι κ : Type} {children : ι → List (κ × ι)}

/-- The labels lead from the first node to the last. -/
inductive Walk (children : ι → List (κ × ι)) : ι → List κ → ι → Prop
  | nil (i : ι) : Walk children i [] i
  | cons {i j l : ι} {k : κ} {ks : List κ} (hedge : (k, j) ∈ children i)
      (hrest : Walk children j ks l) : Walk children i (k :: ks) l

/-- The ends of the edges, under the path `p` to the node they leave. -/
def under (p : List κ) (edges : List (κ × ι)) : List (List κ × ι) :=
  edges.map fun e => (p ++ [e.1], e.2)

/-- The roots, each followed by what is below it, in the order of the edges. -/
inductive Preorder (children : ι → List (κ × ι)) :
    List (List κ × ι) → List (List κ × ι) → Prop
  | nil : Preorder children [] []
  | cons {p : List κ} {i : ι} {roots inner outer : List (List κ × ι)}
      (hinner : Preorder children (under p (children i)) inner)
      (houter : Preorder children roots outer) :
      Preorder children ((p, i) :: roots) ((p, i) :: (inner ++ outer))

theorem Walk.snoc {i j l : ι} {k : κ} {ks : List κ} (h : Walk children i ks j)
    (hedge : (k, l) ∈ children j) : Walk children i (ks ++ [k]) l := by
  induction h with
  | nil i => exact .cons hedge (.nil l)
  | cons hfirst _ ih => exact .cons hfirst (ih hedge)

namespace Preorder

theorem append {roots out roots' out' : List (List κ × ι)} (h : Preorder children roots out)
    (h' : Preorder children roots' out') : Preorder children (roots ++ roots') (out ++ out') := by
  induction h with
  | nil => exact h'
  | cons hinner _ _ ih =>
    rw [List.cons_append, List.cons_append, List.append_assoc]
    exact .cons hinner ih

/-- There is only one. -/
theorem unique {roots out out' : List (List κ × ι)} (h : Preorder children roots out)
    (h' : Preorder children roots out') : out = out' := by
  induction h generalizing out' with
  | nil =>
    cases h'
    rfl
  | cons _ _ ihinner ihouter =>
    cases h' with
    | cons hinner' houter' => rw [ihinner hinner', ihouter houter']

/-- **A preorder has every path** from its roots, with its end. -/
theorem mem_iff {roots out : List (List κ × ι)} (h : Preorder children roots out) {q : List κ}
    {l : ι} :
    (q, l) ∈ out ↔ ∃ r ∈ roots, ∃ ks, q = r.1 ++ ks ∧ Walk children r.2 ks l := by
  induction h with
  | nil => simp
  | @cons p i roots inner outer _ _ ihinner ihouter =>
    rw [List.mem_cons, List.mem_append, ihinner, ihouter]
    constructor
    · rintro (heq | ⟨r, hr, ks, rfl, hwalk⟩ | ⟨r, hr, ks, rfl, hwalk⟩)
      · obtain ⟨rfl, rfl⟩ := Prod.mk.inj heq
        exact ⟨(q, l), by simp, [], by simp, .nil l⟩
      · obtain ⟨e, he, rfl⟩ := List.mem_map.mp hr
        exact ⟨(p, i), by simp, e.1 :: ks, by simp, .cons he hwalk⟩
      · exact ⟨r, by simp [hr], ks, rfl, hwalk⟩
    · rintro ⟨r, hr, ks, rfl, hwalk⟩
      rcases List.mem_cons.mp hr with rfl | hr
      · cases hwalk with
        | nil => exact .inl (by simp)
        | @cons _ j _ k ks hedge hrest =>
          exact .inr (.inl ⟨(p ++ [k], j), List.mem_map.mpr ⟨(k, j), hedge, rfl⟩, ks, by simp, hrest⟩)
      · exact .inr (.inr ⟨r, hr, ks, rfl, hwalk⟩)

/-- No path is the beginning of the other. -/
def Apart (a b : List κ × ι) : Prop := ¬ a.1 <+: b.1 ∧ ¬ b.1 <+: a.1

theorem pairwise_under (p : List κ) {edges : List (κ × ι)} (h : (edges.map Prod.fst).Nodup) :
    (under p edges).Pairwise Apart := by
  rw [List.Nodup, List.pairwise_map] at h
  rw [under, List.pairwise_map]
  refine h.imp ?_
  intro a b hne
  simp only [Apart, List.prefix_append_right_inj, List.cons_prefix_cons, List.prefix_rfl, and_true]
  exact ⟨hne, Ne.symm hne⟩

/-- **A preorder has every path once**, if the edges that leave a node have different
labels. -/
theorem nodup {roots out : List (List κ × ι)} (h : Preorder children roots out)
    (hroots : roots.Pairwise Apart)
    (hlabels : ∀ r ∈ roots, ∀ ks l, Walk children r.2 ks l → ((children l).map Prod.fst).Nodup) :
    (out.map Prod.fst).Nodup := by
  induction h with
  | nil => exact List.nodup_nil
  | @cons p i roots inner outer hinner houter ihinner ihouter =>
    obtain ⟨happart, hrest⟩ := List.pairwise_cons.mp hroots
    -- everything in `inner` goes on from `p`, everything in `outer` from another root
    have hbelow : ∀ q ∈ inner.map Prod.fst, p <+: q ∧ p ≠ q := by
      intro q hq
      obtain ⟨⟨q, l⟩, hmem, rfl⟩ := List.mem_map.mp hq
      obtain ⟨r, hr, ks, rfl, -⟩ := hinner.mem_iff.mp hmem
      obtain ⟨e, -, rfl⟩ := List.mem_map.mp hr
      exact ⟨⟨e.1 :: ks, by simp⟩, by simp⟩
    have hbeside : ∀ q ∈ outer.map Prod.fst, ¬ p <+: q := by
      intro q hq hpq
      obtain ⟨⟨q, l⟩, hmem, rfl⟩ := List.mem_map.mp hq
      obtain ⟨r, hr, ks, rfl, -⟩ := houter.mem_iff.mp hmem
      rcases List.prefix_or_prefix_of_prefix hpq (List.prefix_append r.1 ks) with hle | hge
      · exact (happart r hr).1 hle
      · exact (happart r hr).2 hge
    have hself := hlabels (p, i) (by simp)
    rw [List.map_cons, List.map_append, List.nodup_cons, List.mem_append, List.nodup_append]
    refine ⟨?_, ihinner (pairwise_under p (hself [] i (.nil i))) ?_, ihouter hrest ?_, ?_⟩
    · rintro (hin | hout)
      · exact (hbelow p hin).2 rfl
      · exact hbeside p hout List.prefix_rfl
    · intro r hr ks l hwalk
      obtain ⟨e, he, rfl⟩ := List.mem_map.mp hr
      exact hself (e.1 :: ks) l (.cons he hwalk)
    · intro r hr
      exact hlabels r (by simp [hr])
    · intro q hin q' hout heq
      exact hbeside q' hout (heq ▸ (hbelow q hin).1)

end Preorder

/-- In a finite set without cycles that steps do not leave, no step can be repeated for
ever. -/
theorem acc_of_acyclic {R : ι → ι → Prop} {P : ι → Prop} (hfin : Finite {i // P i})
    (hstep : ∀ i j, P i → R i j → P j) (hacyc : ∀ i, P i → ¬ Relation.TransGen R i i) :
    ∀ i, P i → Acc (fun j i => R i j) i := by
  let S : {i // P i} → {i // P i} → Prop := fun b a => Relation.TransGen R a.1 b.1
  have htrans : IsTrans {i // P i} S := ⟨fun _ _ _ hab hbc => hbc.trans hab⟩
  have hirrefl : Std.Irrefl S := ⟨fun a => hacyc a.1 a.2⟩
  have hwf : WellFounded S := Finite.wellFounded_of_trans_of_irrefl S
  have hacc : ∀ a : {i // P i}, Acc (fun j i => R i j) a.1 := by
    intro a
    induction a using hwf.induction with
    | h a ih => exact ⟨a.1, fun j hj => ih ⟨j, hstep a.1 j a.2 hj⟩ (.single hj)⟩
  exact fun i hi => hacc ⟨i, hi⟩

/-! ## Cycles and images -/

theorem Walk.append {i j l : ι} {ks ks' : List κ} (h : Walk children i ks j)
    (h' : Walk children j ks' l) : Walk children i (ks ++ ks') l := by
  induction h with
  | nil => exact h'
  | cons hedge _ ih => exact .cons hedge (ih h')

theorem exists_walk_of_transGen {i j : ι}
    (h : Relation.TransGen (fun i j => ∃ k, (k, j) ∈ children i) i j) :
    ∃ ks, ks ≠ [] ∧ Walk children i ks j := by
  induction h with
  | single hedge =>
    obtain ⟨k, hedge⟩ := hedge
    exact ⟨[k], List.cons_ne_nil k [], .cons hedge (.nil _)⟩
  | tail _ hedge ih =>
    obtain ⟨ks, -, hwalk⟩ := ih
    obtain ⟨k, hedge⟩ := hedge
    exact ⟨ks ++ [k], by simp, hwalk.snoc hedge⟩

/-- Where no walk is long there are no cycles. -/
theorem acyclic_of_bounded {r i : ι} {p : List κ} {n : Nat}
    (hbound : ∀ q l, Walk children r q l → q.length ≤ n) (hi : Walk children r p i) :
    ¬ Relation.TransGen (fun i j => ∃ k, (k, j) ∈ children i) i i := by
  intro hcycle
  obtain ⟨ks, hne, hks⟩ := exists_walk_of_transGen hcycle
  have hpos := List.length_pos_iff.mpr hne
  have hlong : ∀ m, ∃ q, m ≤ q.length ∧ Walk children r q i := by
    intro m
    induction m with
    | zero => exact ⟨p, Nat.zero_le _, hi⟩
    | succ m ih =>
      obtain ⟨q, hq, hwalk⟩ := ih
      exact ⟨q ++ ks, by rw [List.length_append]; omega, hwalk.append hks⟩
  obtain ⟨q, hq, hwalk⟩ := hlong (n + 1)
  exact absurd (hbound q i hwalk) (by omega)

section map

/-! A graph that is the image of another one has the images of its walks and preorders. -/

variable {ι' : Type} {children' : ι' → List (κ × ι')} {f : ι → ι'}
  (hmap : ∀ i, children' (f i) = (children i).map fun e => (e.1, f e.2))
include hmap

theorem Walk.of_map {i : ι} {ks : List κ} {l' : ι'} (h : Walk children' (f i) ks l') :
    ∃ l, f l = l' ∧ Walk children i ks l := by
  generalize hi : f i = i' at h
  induction h generalizing i with
  | nil => exact ⟨i, hi, .nil i⟩
  | cons hedge _ ih =>
    rw [← hi, hmap] at hedge
    obtain ⟨e, he, heq⟩ := List.mem_map.mp hedge
    obtain ⟨rfl, hj⟩ := Prod.mk.inj heq
    obtain ⟨l, hl, hwalk⟩ := ih hj
    exact ⟨l, hl, .cons he hwalk⟩

theorem under_map (p : List κ) (i : ι) :
    under p (children' (f i)) = (under p (children i)).map fun r => (r.1, f r.2) := by
  rw [hmap, under, under, List.map_map, List.map_map]
  rfl

theorem Preorder.of_map {roots : List (List κ × ι)} {out' : List (List κ × ι')}
    (h : Preorder children' (roots.map fun r => (r.1, f r.2)) out') :
    ∃ out, out' = out.map (fun r => (r.1, f r.2)) ∧ Preorder children roots out := by
  generalize hroots : roots.map (fun r => (r.1, f r.2)) = roots' at h
  induction h generalizing roots with
  | nil =>
    obtain rfl := List.map_eq_nil_iff.mp hroots
    exact ⟨[], rfl, .nil⟩
  | cons _ _ ihinner ihouter =>
    obtain ⟨⟨p, i⟩, rest, rfl, hroot, hrest⟩ := List.map_eq_cons_iff.mp hroots
    obtain ⟨rfl, rfl⟩ := Prod.mk.inj hroot
    obtain ⟨inner, rfl, hinner⟩ := ihinner (under_map hmap p i).symm
    obtain ⟨outer, rfl, houter⟩ := ihouter hrest
    exact ⟨(p, i) :: (inner ++ outer), by simp, .cons hinner houter⟩

end map

end Acso.Lib
