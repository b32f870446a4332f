import Mathlib.Data.List.Nodup
import Predication.Instruction

/-!
Dominance in a flow graph. A block dominates another one if every way from the entry to the latter
passes the former. The dominators of a block form a chain, and natural loops with different headers
are disjoint or nested.
-/

set_option autoImplicit false
set_option relaxedAutoImplicit false

namespace Predication.Flow

/-- A way along edges from `a`, with the blocks that it passes, the last one first. -/
inductive Way (edge : BlockId → BlockId → Prop) (a : BlockId) : BlockId → List BlockId → Prop
  | start : Way edge a a [a]
  | step {b c : BlockId} {l : List BlockId} (way : Way edge a b l) (last : edge b c) :
      Way edge a c (c :: l)

def Reaches (edge : BlockId → BlockId → Prop) (a b : BlockId) : Prop := ∃ l, Way edge a b l

def Dominates (edge : BlockId → BlockId → Prop) (entry a b : BlockId) : Prop :=
  ∀ l, Way edge entry b l → a ∈ l

variable {edge : BlockId → BlockId → Prop} {entry a b c h k p x : BlockId} {l l' : List BlockId}

namespace Way

theorem last_mem (way : Way edge a b l) : b ∈ l := by
  cases way with
  | start => exact List.mem_singleton_self a
  | step => exact List.mem_cons_self

private theorem first_mem (way : Way edge a b l) : a ∈ l := by
  induction way with
  | start => exact List.mem_singleton_self a
  | step way last ih => exact List.mem_cons_of_mem _ ih

theorem upTo (way : Way edge a b l) (mem : c ∈ l) : ∃ l', Way edge a c l' ∧ l' <:+ l := by
  induction way with
  | start =>
    obtain rfl := List.mem_singleton.mp mem
    exact ⟨[c], .start, List.suffix_rfl⟩
  | @step b d l way last ih =>
    rcases List.mem_cons.mp mem with rfl | mem
    · exact ⟨c :: l, way.step last, List.suffix_rfl⟩
    · obtain ⟨l', part, suffix⟩ := ih mem
      exact ⟨l', part, suffix.trans (List.suffix_cons _ _)⟩

private theorem after (way : Way edge a b l) (mem : h ∈ l) :
    b = h ∨ ∃ c l', edge h c ∧ Way edge c b l' ∧ h ∉ l' ∧ l' ⊆ l := by
  induction way with
  | start => exact .inl (List.mem_singleton.mp mem).symm
  | @step b d l way last ih =>
    by_cases here : d = h
    · exact .inl here
    · have earlier : h ∈ l := (List.mem_cons.mp mem).resolve_left (Ne.symm here)
      refine .inr ?_
      rcases ih earlier with rfl | ⟨c, l', first, part, free, sub⟩
      · refine ⟨d, [d], last, .start, ?_, ?_⟩
        · simpa using Ne.symm here
        · simp
      · refine ⟨c, d :: l', first, part.step last, ?_, List.cons_subset_cons _ sub⟩
        simpa using ⟨Ne.symm here, free⟩

private theorem since (way : Way edge a b l) (mem : c ∈ l) : ∃ l', Way edge c b l' ∧ l' ⊆ l := by
  induction way with
  | start =>
    obtain rfl := List.mem_singleton.mp mem
    exact ⟨[c], .start, List.Subset.refl _⟩
  | @step b d l way last ih =>
    rcases List.mem_cons.mp mem with rfl | mem
    · exact ⟨[c], .start, by simp⟩
    · obtain ⟨l', part, sub⟩ := ih mem
      exact ⟨d :: l', part.step last, List.cons_subset_cons _ sub⟩

private theorem append (way : Way edge a b l) (way' : Way edge b c l') :
    ∃ m, Way edge a c m ∧ m ⊆ l ++ l' := by
  induction way' with
  | start => exact ⟨l, way, List.subset_append_left _ _⟩
  | @step d e l' way' last ih =>
    obtain ⟨m, joined, sub⟩ := ih
    refine ⟨e :: m, joined.step last, fun y hy => ?_⟩
    rcases List.mem_cons.mp hy with rfl | hy
    · simp
    · rcases List.mem_append.mp (sub hy) with old | new
      · exact List.mem_append_left _ old
      · exact List.mem_append_right _ (List.mem_cons_of_mem _ new)

theorem shorten (way : Way edge a b l) : ∃ l', Way edge a b l' ∧ l'.Nodup ∧ l' ⊆ l := by
  induction way with
  | start => exact ⟨[a], .start, List.nodup_singleton a, List.Subset.refl _⟩
  | @step b d l way last ih =>
    obtain ⟨l', short, nodup, sub⟩ := ih
    by_cases again : d ∈ l'
    · -- the way has been here before, so the detour since then can go
      obtain ⟨m, part, suffix⟩ := short.upTo again
      refine ⟨m, part, nodup.sublist suffix.sublist, fun y hy => ?_⟩
      exact List.mem_cons_of_mem _ (sub (suffix.subset hy))
    · exact ⟨d :: l', short.step last, List.nodup_cons.mpr ⟨again, nodup⟩,
        List.cons_subset_cons _ sub⟩

end Way

theorem Reaches.refl (a : BlockId) : Reaches edge a a := ⟨[a], .start⟩

theorem Reaches.step (reached : Reaches edge a b) (last : edge b c) : Reaches edge a c := by
  obtain ⟨l, way⟩ := reached
  exact ⟨c :: l, way.step last⟩

theorem Reaches.along (reached : Reaches edge entry a) (way : Way edge a b l) (mem : c ∈ l) :
    Reaches edge entry c := by
  obtain ⟨m, first⟩ := reached
  obtain ⟨l', part, -⟩ := way.upTo mem
  obtain ⟨m', joined, -⟩ := first.append part
  exact ⟨m', joined⟩

namespace Dominates

theorem refl (a : BlockId) : Dominates edge entry a a := fun _ way => way.last_mem

private theorem trans (ab : Dominates edge entry a b) (bc : Dominates edge entry b c) :
    Dominates edge entry a c := by
  intro l way
  obtain ⟨l', part, suffix⟩ := way.upTo (bc l way)
  exact suffix.subset (ab l' part)

theorem eq_entry (h : Dominates edge entry a entry) : a = entry :=
  List.mem_singleton.mp (h [entry] .start)

theorem pred (dom : Dominates edge entry a b) (other : a ≠ b) (last : edge p b) :
    Dominates edge entry a p := by
  intro l way
  exact (List.mem_cons.mp (dom (b :: l) (way.step last))).resolve_left other

theorem of_preds (away : b ≠ entry)
    (preds : ∀ p, Reaches edge entry p → edge p b → Dominates edge entry a p) :
    Dominates edge entry a b := by
  intro l way
  cases way with
  | start => exact absurd rfl away
  | step way last => exact List.mem_cons_of_mem _ (preds _ ⟨_, way⟩ last _ way)

theorem antisymm (ab : Dominates edge entry a b) (ba : Dominates edge entry b a)
    (reached : Reaches edge entry a) : a = b := by
  by_contra other
  obtain ⟨l, way⟩ := reached
  -- each way to `a` holds a shorter one, by way of `b`
  induction n : l.length using Nat.strongRecOn generalizing l with
  | _ n ih =>
    obtain ⟨m, toB, suffix⟩ := way.upTo (ba l way)
    obtain ⟨m', toA, suffix'⟩ := toB.upTo (ab m toB)
    have shorter : m.length ≠ l.length := by
      intro same
      obtain rfl := suffix.eq_of_length same
      cases way with
      | start =>
        cases toB with
        | start => exact other rfl
        | step way' => cases way'
      | step =>
        cases toB
        all_goals exact other rfl
    have le := suffix.length_le
    have le' := suffix'.length_le
    exact ih m'.length (by omega) m' toA rfl

private theorem linear (ac : Dominates edge entry a c) (bc : Dominates edge entry b c)
    (reached : Reaches edge entry c) : Dominates edge entry a b ∨ Dominates edge entry b a := by
  by_contra neither
  obtain ⟨noAB, noBA⟩ := not_or.mp neither
  obtain ⟨l, toB, freeA⟩ : ∃ l, Way edge entry b l ∧ a ∉ l := by
    unfold Dominates at noAB
    push Not at noAB
    exact noAB
  obtain ⟨m, toA, freeB⟩ : ∃ m, Way edge entry a m ∧ b ∉ m := by
    unfold Dominates at noBA
    push Not at noBA
    exact noBA
  obtain ⟨w, way⟩ := reached
  rcases way.after (ac w way) with rfl | ⟨d, w', first, rest, clear, -⟩
  · exact freeB (bc m toA)
  · obtain ⟨w'', joined, sub⟩ := (toA.step first).append rest
    -- the way to `a` misses `b`, so `b` lies behind the last visit to `a`
    have late : b ∈ w' := by
      rcases List.mem_append.mp (sub (bc w'' joined)) with early | late
      · rcases List.mem_cons.mp early with rfl | early
        · exact rest.first_mem
        · exact absurd early freeB
      · exact late
    obtain ⟨v, tail, sub'⟩ := rest.since late
    obtain ⟨v', through, sub''⟩ := toB.append tail
    rcases List.mem_append.mp (sub'' (ac v' through)) with early | late
    · exact freeA early
    · exact clear (sub' late)

end Dominates

/-- An edge from the reached block `p` back to `h`, which dominates it. -/
structure Latch (edge : BlockId → BlockId → Prop) (entry h p : BlockId) : Prop where
  reached : Reaches edge entry p
  back : edge p h
  dominated : Dominates edge entry h p

/-- The block `b` belongs to the natural loop of `h`: it is `h`, or control can get from it to a latch
without passing `h`. -/
def InLoop (edge : BlockId → BlockId → Prop) (entry h b : BlockId) : Prop :=
  b = h ∨ Reaches edge entry b ∧ ∃ p, Latch edge entry h p ∧ ∃ l, Way edge b p l ∧ h ∉ l

namespace InLoop

theorem header (h : BlockId) : InLoop edge entry h h := .inl rfl

theorem reached (mem : InLoop edge entry h b) (start : Reaches edge entry h) :
    Reaches edge entry b := by
  rcases mem with rfl | ⟨reached, -⟩
  · exact start
  · exact reached

theorem dominated (mem : InLoop edge entry h b) : Dominates edge entry h b := by
  rcases mem with rfl | ⟨-, p, latch, l, way, free⟩
  · exact .refl b
  · intro m first
    obtain ⟨m', joined, sub⟩ := first.append way
    exact (List.mem_append.mp (sub (latch.dominated m' joined))).resolve_right free

theorem of_way (mem : InLoop edge entry h b) (reached : Reaches edge entry a)
    (way : Way edge a b l) (free : h ∉ l) : InLoop edge entry h a := by
  rcases mem with rfl | ⟨-, p, latch, m, rest, free'⟩
  · exact absurd way.last_mem free
  · obtain ⟨m', joined, sub⟩ := way.append rest
    refine .inr ⟨reached, p, latch, m', joined, fun here => ?_⟩
    exact (List.mem_append.mp (sub here)).elim free free'

private theorem back (mem : InLoop edge entry h b) (other : b ≠ h) :
    ∃ l, Way edge b h l ∧ ∀ x ∈ l, InLoop edge entry h x := by
  rcases mem with rfl | ⟨reached, p, latch, l, way, free⟩
  · exact absurd rfl other
  · refine ⟨h :: l, way.step latch.back, fun x hx => ?_⟩
    rcases List.mem_cons.mp hx with rfl | hx
    · exact .header x
    · obtain ⟨m, part, sub⟩ := way.since hx
      exact .inr ⟨reached.along way hx, p, latch, m, part, fun here => free (sub here)⟩

/-- A loop whose header strictly dominates that of another loop, which it meets, contains it. -/
private theorem mono (mem : InLoop edge entry h b) (mem' : InLoop edge entry k b)
    (start : Reaches edge entry k) (dom : Dominates edge entry h k) (other : h ≠ k)
    (inner : InLoop edge entry k x) : InLoop edge entry h x := by
  have away : ¬ Dominates edge entry k h := fun dom' => other (dom'.antisymm dom start).symm
  -- no block of the inner loop is the header of the outer one
  have clear : ∀ y, InLoop edge entry k y → y ≠ h := by
    rintro y hy rfl
    exact away hy.dominated
  have reachedB : Reaches edge entry b := mem'.reached start
  -- behind the last visit to `h` on the way to `b` lies `k`, so `k` is in the loop of `h`
  have middle : InLoop edge entry h k := by
    obtain ⟨w, way⟩ := reachedB
    rcases way.after (mem.dominated w way) with rfl | ⟨d, w', first, rest, free, -⟩
    · exact absurd rfl (clear b mem')
    · obtain ⟨m, toH, missed⟩ : ∃ m, Way edge entry h m ∧ k ∉ m := by
        unfold Dominates at away
        push Not at away
        exact away
      obtain ⟨w'', joined, sub⟩ := (toH.step first).append rest
      have late : k ∈ w' := by
        rcases List.mem_append.mp (sub (mem'.dominated w'' joined)) with early | late
        · rcases List.mem_cons.mp early with rfl | early
          · exact rest.first_mem
          · exact absurd early missed
        · exact late
      obtain ⟨v, tail, sub'⟩ := rest.since late
      exact mem.of_way start tail fun here => free (sub' here)
  by_cases same : x = k
  · rw [same]
    exact middle
  · obtain ⟨l, way, inside⟩ := inner.back same
    refine middle.of_way (inner.reached start) way fun here => ?_
    exact clear h (inside h here) rfl

end InLoop

/-- Two loops with different headers that have a block in common: one header dominates the other and
is not in the other's loop, which is part of its own. -/
theorem loops_nested (mem : InLoop edge entry h b) (mem' : InLoop edge entry k b)
    (start : Reaches edge entry h) (start' : Reaches edge entry k) (other : h ≠ k) :
    (¬ InLoop edge entry k h ∧ ∀ x, InLoop edge entry k x → InLoop edge entry h x) ∨
      ¬ InLoop edge entry h k ∧ ∀ x, InLoop edge entry h x → InLoop edge entry k x := by
  rcases mem.dominated.linear mem'.dominated (mem.reached start) with dom | dom
  · exact .inl ⟨fun back => other (dom.antisymm back.dominated start),
      fun x => mem.mono mem' start' dom other⟩
  · exact .inr ⟨fun back => other (back.dominated.antisymm dom start),
      fun x => mem'.mono mem start dom (Ne.symm other)⟩

theorem loop_of_header (mem : InLoop edge entry h k) (start : Reaches edge entry h)
    (other : h ≠ k) :
    ¬ InLoop edge entry k h ∧ ∀ x, InLoop edge entry k x → InLoop edge entry h x := by
  rcases loops_nested mem (.header k) start (mem.reached start) other with outer | inner
  · exact outer
  · exact absurd mem inner.1

end Predication.Flow
