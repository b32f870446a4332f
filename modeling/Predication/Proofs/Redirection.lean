import Predication.Proofs.Settling
import Predication.Proofs.Shedding

/-!
Leading branches on keeps what a procedure does. Control that went from `p` through `t` to `x` now
goes from `p` to `x`; what `t` did on the way was nothing, and the phis of `x` take from `p` what they
took from `t`.
-/

set_option autoImplicit false
set_option relaxedAutoImplicit false

namespace Predication

open Cleanup

namespace Inst

variable {y : Inst} {p q t x : BlockId} {w : BlockId → BlockId}

private theorem follows_feed (phi : y.op = .phi) : y.Follows w (y.feed t p) := by
  unfold feed
  split
  · exact .of_phi phi _
  · exact .of_phi phi _

private theorem phiInputs_feed {v : Operand} (even : y.uses.length % 2 = 0) (value : y.phiValue? t = some v) :
    (y.feed t p).phiInputs = y.phiInputs ++ [⟨v, .block p⟩] := by
  unfold feed
  rw [value]
  exact PhiInput.ofUses_append even v (.block p)

private theorem phiValue?_feed_other (even : y.uses.length % 2 = 0) (other : q ≠ p) :
    (y.feed t p).phiValue? q = y.phiValue? q := by
  cases value : y.phiValue? t with
  | none =>
    unfold feed
    rw [value]
  | some v =>
    unfold phiValue?
    rw [phiInputs_feed even value, List.find?_append]
    cases y.phiInputs.find? fun z => decide (z.source = q) with
    | none =>
      have away : ¬ p = q := fun same => other same.symm
      simp [PhiInput.source, Operand.blockId, away]
    | some z => rfl

private theorem phiValue?_feed_same (even : y.uses.length % 2 = 0) (new : p ∉ y.sources)
    (fed : t ∈ y.sources) : (y.feed t p).phiValue? p = y.phiValue? t := by
  obtain ⟨v, value⟩ := Option.isSome_iff_exists.mp (phiValue?_isSome.mpr fed)
  have none : (y.phiInputs.find? fun z => decide (z.source = p)) = Option.none := by
    rw [List.find?_eq_none]
    intro z mem same
    exact new (List.mem_map.mpr ⟨z, mem, by simpa using same⟩)
  rw [value]
  unfold phiValue?
  rw [phiInputs_feed even value, List.find?_append, none]
  simp [PhiInput.source, Operand.blockId]

private theorem sources_feed (even : y.uses.length % 2 = 0) (fed : t ∈ y.sources) :
    q ∈ (y.feed t p).sources ↔ q ∈ y.sources ∨ q = p := by
  obtain ⟨v, value⟩ := Option.isSome_iff_exists.mp (phiValue?_isSome.mpr fed)
  unfold sources
  rw [phiInputs_feed even value, List.map_append, List.mem_append]
  simp [PhiInput.source, Operand.blockId]

private theorem Regular.feed (h : y.Regular) (phi : y.op = .phi) : (y.feed t p).Regular := by
  have follows : y.Follows (fun b => b) (y.feed t p) := follows_feed phi
  have op : (y.feed t p).op = .phi := follows.op.trans phi
  cases value : y.phiValue? t with
  | none =>
    have same : y.feed t p = y := by
      unfold Inst.feed
      rw [value]
    rw [same]
    exact h
  | some v =>
    have length : (y.feed t p).uses.length = y.uses.length + 2 := by
      unfold Inst.feed
      rw [value]
      exact List.length_append
    have even := h.even phi
    refine ⟨fun _ => follows.guard.trans (h.free phi), fun _ => ?_, fun _ => by omega,
      fun _ z mem => ?_, fun br => ?_, fun _ _ _ => ?_⟩
    · rw [follows.defs]
      exact h.defs phi
    · rw [phiInputs_feed even value, List.mem_append, List.mem_singleton] at mem
      rcases mem with old | rfl
      · exact h.values phi z old
      · obtain ⟨u, found, rfl⟩ := Option.map_eq_some_iff.mp value
        exact h.values phi u (List.mem_of_find?_eq_some found)
    · cases br.symm.trans op
    · unfold targets
      rw [op]

private theorem Regular.retarget (h : y.Regular) (named : x ≠ -1) : (y.retarget t x).Regular := by
  by_cases phi : y.op = .phi
  · rw [retarget_phi phi]
    exact h
  · have follows := Follows.retarget y t x
    have other : (y.retarget t x).op ≠ .phi := by rwa [follows.op]
    refine ⟨fun op => absurd op other, fun op => absurd op other, fun op => absurd op other,
      fun op => absurd op other, fun br => ?_, fun hbr hbrc hswitch => ?_⟩
    · obtain ⟨u, rest, uses, known⟩ := h.leads (follows.op.symm.trans br)
      refine ⟨if u = t then x else u, rest.map (Operand.lead fun b => if b = t then x else b), ?_, ?_⟩
      · rw [follows.uses phi, uses]
        rfl
      · split
        · exact named
        · exact known
    · rw [follows.op] at hbr hbrc hswitch
      rw [follows.targets, h.plain hbr hbrc hswitch]
      rfl

end Inst

namespace Procedure

variable {f g : Procedure} {b c p q t x : BlockId} {y : Inst} {l rest : List Inst} {j : Inst}
  {fresh : Bool}

/-- What becomes of an instruction of `c` when branches of `p` to `t` are led on to `x`, where the
edge from `p` to `x` may be new. -/
def diverted (p t x : BlockId) (fresh : Bool) (c : BlockId) (y : Inst) : Inst :=
  if y.op = .phi then (if c = x ∧ fresh then y.feed t p else y)
  else if c = p then y.retarget t x else y

def turned (p t x c b : BlockId) : BlockId := if c = p ∧ b = t then x else b

private theorem follows_diverted (c : BlockId) (y : Inst) :
    y.Follows (turned p t x c) (diverted p t x fresh c y) := by
  unfold diverted
  split
  · rename_i phi
    split
    · exact Inst.follows_feed phi
    · exact .of_phi phi _
  · split
    · rename_i here
      have same : turned p t x c = fun b => if b = t then x else b := by
        funext b
        simp [turned, here]
      rw [same]
      exact .retarget y t x
    · rename_i away
      have same : turned p t x c = fun b => b := by
        funext b
        simp [turned, away]
      rw [same]
      exact .refl y

/-- The branches of `p` to `t` lead to `x`, where `t` only jumps to `x`. -/
structure Diverts (p t x : BlockId) (fresh : Bool) (l : List Inst) (j : Inst) (rest : List Inst)
    (f g : Procedure) : Prop where
  redirects : Redirects p t x f g
  sited : g.Sited
  insts : ∀ c, g.instsAt c = (f.instsAt c).map (diverted p t x fresh c)
  sole : f.instsAt t = l ++ j :: rest
  op : j.op = .br
  free : j.guard = []
  target : j.targets.head? = some x
  markers : ∀ y ∈ l ++ rest, y.op.isDebug = true
  away : x ≠ t
  falls : f.next? p = some t → ¬ Passable (f.instsAt p)
  new : fresh = true ↔ x ∉ (f.blockAt p).succs
  agree : fresh = false → ∀ y ∈ f.instsAt x, y.op = .phi → y.phiValue? p = y.phiValue? t

section Diverts

variable (h : Diverts p t x fresh l j rest f g)

include h

private theorem Diverts.next? (c : BlockId) : g.next? c = f.next? c := by
  unfold Procedure.next?
  rw [h.redirects.layout]

private theorem Diverts.no_phi : ∀ y ∈ f.instsAt t, y.op ≠ .phi := by
  intro y mem phi
  have marker : y ∉ l ++ rest := fun mem => by
    have debug := h.markers y mem
    rw [phi] at debug
    cases debug
  rw [h.sole, List.mem_append, List.mem_cons] at mem
  rcases mem with mem | rfl | mem
  · exact marker (List.mem_append_left _ mem)
  · cases h.op.symm.trans phi
  · exact marker (List.mem_append_right _ mem)

private theorem Diverts.writes_sole : writesOf l = [] :=
  writesOf_debug fun y mem => h.markers y (List.mem_append_left _ mem)

private theorem Diverts.leaves_sole : f.Leaves t l x :=
  .inl ⟨passable_debug fun y mem => h.markers y (List.mem_append_left _ mem), j, rest, h.sole,
    List.mem_of_head? h.target⟩

private theorem Diverts.leaves {u : BlockId} {pre : List Inst} (leaves : g.Leaves c pre u) :
    ∃ pre', writesOf pre' = writesOf pre ∧
      (f.Leaves c pre' u ∧ (c = p → u ≠ t) ∨ c = p ∧ u = x ∧ f.Leaves p pre' t) := by
  have follows : ∀ y ∈ f.instsAt c, y.Follows (turned p t x c) (diverted p t x fresh c y) :=
    fun y _ => follows_diverted c y
  rcases leaves with branch | ⟨⟨pass, next⟩, rfl⟩
  · rw [h.insts] at branch
    obtain ⟨pre', v, old, rfl, same⟩ := branches_follows follows branch
    refine ⟨pre', same.symm, ?_⟩
    by_cases turn : c = p ∧ v = t
    · obtain ⟨rfl, rfl⟩ := turn
      exact .inr ⟨rfl, by simp [turned], .inl old⟩
    · have stays : turned p t x c v = v := if_neg turn
      rw [stays]
      exact .inl ⟨.inl old, fun here same => turn ⟨here, same⟩⟩
  · rw [h.insts, passable_follows follows] at pass
    rw [h.next?] at next
    refine ⟨f.instsAt c, by rw [h.insts, writesOf_follows follows],
      .inl ⟨.inr ⟨⟨pass, next⟩, rfl⟩, ?_⟩⟩
    rintro rfl rfl
    exact h.falls next pass

private theorem Diverts.arrives {source : Option BlockId} {rs : List Reg} (way : g.Arrives source c rs) :
    f.Arrives source c rs ∨ source = some p ∧ c = x ∧ f.Arrives (some t) x rs := by
  induction way with
  | entry first =>
    refine .inl (.entry ?_)
    rw [← first]
    unfold entry?
    rw [h.redirects.layout]
  | @edge source b u rs pre _ leaves ih =>
    have before : ∃ source', f.Arrives source' b rs := by
      rcases ih with way | ⟨-, rfl, way⟩
      · exact ⟨_, way⟩
      · exact ⟨_, way⟩
    obtain ⟨source', way⟩ := before
    obtain ⟨pre', same, ⟨old, -⟩ | ⟨rfl, rfl, through⟩⟩ := h.leaves leaves
    · rw [← same]
      exact .inl (way.edge old)
    · have onward := (way.edge through).edge h.leaves_sole
      rw [h.writes_sole, List.append_nil, same] at onward
      exact .inr ⟨rfl, rfl, onward⟩

private theorem Diverts.fed (sound : f.Sound) {z : Inst} (mem : z ∈ f.instsAt x) (phi : z.op = .phi) :
    t ∈ z.sources := by
  rw [sound.sources x z mem phi, ← sound.mutual_ends]
  exact sound.edges t x ⟨l, h.leaves_sole⟩

private theorem Diverts.value (sound : f.Sound) {source : Option BlockId} {rs : List Reg}
    (way : f.Arrives source c rs) {z : Inst} (mem : z ∈ f.instsAt c) (phi : z.op = .phi) :
    source.bind (diverted p t x fresh c z).phiValue? = source.bind z.phiValue? := by
  unfold diverted
  rw [if_pos phi]
  split
  · rename_i fed
    obtain ⟨rfl, fresh⟩ := fed
    cases source with
    | none => rfl
    | some q =>
      refine Inst.phiValue?_feed_other ((sound.regular c z mem).even phi) ?_
      rintro rfl
      exact h.new.mp fresh (sound.edges q c way.leads.1)
  · rfl

private theorem Diverts.value_through (sound : f.Sound) {z : Inst} (mem : z ∈ f.instsAt x)
    (phi : z.op = .phi) :
    (diverted p t x fresh x z).phiValue? p = z.phiValue? t := by
  unfold diverted
  rw [if_pos phi]
  cases new : fresh with
  | true =>
    rw [if_pos ⟨rfl, rfl⟩]
    refine Inst.phiValue?_feed_same ((sound.regular x z mem).even phi) ?_ (h.fed sound mem phi)
    rw [sound.sources x z mem phi, ← sound.mutual_ends]
    exact h.new.mp new
  | false =>
    rw [if_neg (by simp)]
    exact h.agree new z mem phi

private theorem Diverts.strict (sound : f.Sound) : g.Strict := by
  have follows : ∀ c, ∀ y ∈ f.instsAt c, y.Follows (turned p t x c) (diverted p t x fresh c y) :=
    fun c y _ => follows_diverted c y
  have writes : ∀ c, writesOf (g.instsAt c) = writesOf (f.instsAt c) := fun c => by
    rw [h.insts, writesOf_follows (follows c)]
  refine sound.strict.carry (fun c r mem => by rwa [writes] at mem)
    (fun c => by rw [writes]; exact sound.strict.once c) (fun way => ?_) ?_ ?_
  · rcases h.arrives way with way | ⟨-, rfl, way⟩
    · exact ⟨_, _, way, List.Subset.refl _⟩
    · exact ⟨_, _, way, List.Subset.refl _⟩
  · intro c pre z post split pass
    rw [h.insts] at split
    obtain ⟨pre', y, post', old, -, -, like, pass', same⟩ := split_follows (follows c) split
    exact ⟨pre', y, post', old, pass' pass, fun _ => (same ▸ ·), fun r mem => by rwa [like.reads] at mem⟩
  · intro q c rs z r label way mem phi value written
    rw [h.insts] at mem
    obtain ⟨y, there, rfl⟩ := List.mem_map.mp mem
    have phi' : y.op = .phi := (follows c y there).op.symm.trans phi
    rcases h.arrives way with old | ⟨same, rfl, through⟩
    · have kept := h.value sound old there phi'
      simp only [Option.bind_some] at kept
      rw [kept] at value
      exact sound.strict.inputs old there phi' value written
    · cases same
      rw [h.value_through sound there phi'] at value
      exact sound.strict.inputs through there phi' value written

private theorem Diverts.sound (sound : f.Sound)
    (stops : f.next? p = some t → Trait.runsOn (f.traits p) = false) : g.Sound := by
  have liveX := (sound.leads_live ⟨l, h.leaves_sole⟩).2
  have named : x ≠ -1 := by
    rintro rfl
    cases liveX
  have succs := h.redirects.succs
  refine ⟨h.redirects.guided sound.toGuided liveX stops, h.sited, fun c z mem => ?_, fun c u leads => ?_,
    fun c z mem phi q => ?_, fun c hc pass => ?_, h.strict sound⟩
  · rw [h.insts] at mem
    obtain ⟨y, there, rfl⟩ := List.mem_map.mp mem
    have regular := sound.regular c y there
    unfold diverted
    split
    · rename_i phi
      split
      · exact regular.feed phi
      · exact regular
    · split
      · exact regular.retarget named
      · exact regular
  · obtain ⟨pre, leaves⟩ := leads
    obtain ⟨pre', -, ⟨old, other⟩ | ⟨rfl, rfl, -⟩⟩ := h.leaves leaves
    · rw [succs]
      split
      · rename_i here
        exact .inl ⟨here ▸ sound.edges c u ⟨pre', old⟩, other here⟩
      · exact sound.edges c u ⟨pre', old⟩
    · rw [succs, if_pos rfl]
      exact .inr rfl
  · rw [h.insts] at mem
    obtain ⟨y, there, rfl⟩ := List.mem_map.mp mem
    have phi' : y.op = .phi := (follows_diverted c y).op.symm.trans phi
    have old := sound.sources c y there phi' q
    have even := (sound.regular c y there).even phi'
    have inside : c ≠ t := by
      rintro rfl
      exact h.no_phi y there phi'
    rw [← h.redirects.firm.mutual_ends, succs]
    unfold diverted
    rw [if_pos phi']
    by_cases here : c = x ∧ fresh = true
    · rw [if_pos here, Inst.sources_feed even (h.fed sound (here.1 ▸ there) phi'), old,
        ← sound.mutual_ends]
      split
      · rename_i same
        simp [same, here.1]
      · rename_i other
        simp [other]
    · rw [if_neg here, old, ← sound.mutual_ends]
      split
      · rename_i same
        subst same
        constructor
        · exact fun edge => .inl ⟨edge, inside⟩
        · rintro (⟨edge, -⟩ | rfl)
          · exact edge
          · by_contra none
            exact here ⟨rfl, h.new.mpr none⟩
      · rfl
  · rw [h.redirects.layout] at hc
    rw [h.insts, passable_follows fun y _ => follows_diverted c y] at pass
    rw [h.next?]
    exact sound.closed c hc pass

end Diverts

/-- Where control is in both procedures: at the same place, or at `x`, having come there through `t`
in one of them. -/
inductive Diverted (f : Procedure) (p t x : BlockId) {V : Type} : Snapshot V → Snapshot V → Prop
  | same {c : Snapshot V} : c.Located f → Diverted f p t x c c
  | through {s : Store V} {rs : List Reg} : f.Arrives (some t) x rs →
      Diverted f p t x ⟨.block (some t) x, s⟩ ⟨.block (some p) x, s⟩

section Simulation

variable {V : Type} {m : Machine V} {s : Store V} {source source' : Option BlockId} {rs : List Reg}
  (h : Diverts p t x fresh l j rest f g)

include h

private theorem Diverts.pass (source : Option BlockId) (s : Store V) :
    f.step m ⟨.block source t, s⟩ = ⟨.block (some t) x, s⟩ := by
  have enters : m.enter (f.instsAt t) source s.file = s.file := by
    funext r
    exact Machine.enter_of_not_mem fun y mem phi => absurd phi (h.no_phi y mem)
  have run : m.run (f.instsAt t) s = .leave (some x) s := by
    rw [h.sole, Machine.run_append,
      Machine.run_debug fun y mem => h.markers y (List.mem_append_left _ mem), Exit.andThen_on,
      Machine.run, Machine.execute_jump h.op h.free, h.target]
    rfl
  unfold step
  simp only
  rw [enters, run]
  rfl

/-- A block does the same in both procedures, but for branches that are led on. -/
private theorem Diverts.departs (way : f.Arrives source c rs) (s : Store V) :
    ∃ n, Diverted f p t x ((f.step m)^[n] (f.depart c (m.run (f.instsAt c) s)))
      (g.depart c (m.run (g.instsAt c) s)) := by
  have follows : ∀ y ∈ f.instsAt c, y.Follows (turned p t x c) (diverted p t x fresh c y) :=
    fun y _ => follows_diverted c y
  rw [h.insts, Machine.run_follows follows]
  have located := located_depart (m := m) (s := s) way
  cases run : m.run (f.instsAt c) s with
  | on s' =>
    refine ⟨0, ?_⟩
    rw [run] at located
    unfold depart Exit.lead at *
    simp only at *
    rw [h.next?]
    exact .same located
  | ret values s' =>
    refine ⟨0, ?_⟩
    rw [run] at located
    exact .same located
  | leave u s' =>
    rw [run] at located
    cases u with
    | none => exact ⟨0, .same located⟩
    | some u =>
      by_cases turn : c = p ∧ u = t
      · obtain ⟨rfl, rfl⟩ := turn
        obtain ⟨pre, leaves⟩ := leaves_of_run run
        have turns : turned c u x c u = x := if_pos ⟨rfl, rfl⟩
        refine ⟨1, ?_⟩
        unfold Exit.lead
        simp only [Option.map_some, turns, depart, Snapshot.arrive, Function.iterate_one]
        rw [h.pass]
        exact .through ((way.edge leaves).edge h.leaves_sole)
      · have stays : turned p t x c u = u := if_neg turn
        refine ⟨0, ?_⟩
        unfold Exit.lead
        simp only [Option.map_some, stays]
        exact .same located

/-- Each block is entered with the same registers, and then does the same. -/
private theorem Diverts.steps (sound : f.Sound) {c d : Snapshot V} (related : Diverted f p t x c d) :
    ∃ n, Diverted f p t x ((f.step m)^[n + 1] c) (g.step m d) := by
  have goes : ∀ {source source' b rs} {s : Store V}, f.Arrives source b rs →
      (∀ y ∈ f.instsAt b, y.op = .phi →
        source'.bind (diverted p t x fresh b y).phiValue? = source.bind y.phiValue?) →
      ∃ n, Diverted f p t x ((f.step m)^[n + 1] ⟨.block source b, s⟩)
        (g.step m ⟨.block source' b, s⟩) := by
    intro source source' b rs s way values
    have enters : m.enter (g.instsAt b) source' s.file = m.enter (f.instsAt b) source s.file := by
      rw [h.insts]
      exact Machine.enter_follows (fun y _ => follows_diverted b y) values s.file
    obtain ⟨n, related⟩ := h.departs (m := m) way { s with file := m.enter (f.instsAt b) source s.file }
    refine ⟨n, ?_⟩
    rw [Function.iterate_succ_apply]
    unfold step
    simp only
    rw [enters]
    exact related
  cases related with
  | @same c located =>
    obtain ⟨spot, s⟩ := c
    cases spot with
    | block source b =>
      obtain ⟨rs, way⟩ := located source b rfl
      exact goes way fun y mem phi => h.value sound way mem phi
    | returned | nowhere => exact ⟨0, .same located⟩
  | through way => exact goes way fun y mem phi => h.value_through sound mem phi

private theorem Diverts.alike (sound : f.Sound) : Alike f g := by
  refine alike_of_simulates fun V m => ⟨Diverted f p t x, fun file => ?_, fun c d => h.steps sound, ?_, ?_⟩
  · have same : g.start file = f.start file := by
      unfold start entry?
      rw [h.redirects.layout]
    rw [same]
    exact .same (located_start file)
  · rintro c d (located | way) <;> rfl
  · rintro c d (located | way) <;> rfl

end Simulation

private theorem split_of_soleJump? (firm : f.Firm) (h : Trait.soleJump? (f.traits t) = some x) :
    ∃ l j rest, f.instsAt t = l ++ j :: rest ∧ (∀ y ∈ l ++ rest, y.op.isDebug = true) ∧
      j.op = .br ∧ j.guard = [] ∧ j.targets.head? = some x := by
  have traits : f.traits t = (f.instsAt t).map Inst.trait := by
    unfold traits traitsOf instsAt
    rw [List.map_filterMap]
  rw [Trait.soleJump?_eq_some, traits, List.filter_map, List.map_eq_singleton_iff] at h
  obtain ⟨j, only, trait⟩ := h
  obtain ⟨l, rest, split, before, -, after⟩ := List.filter_eq_cons_iff.mp only
  obtain ⟨i, mem, found⟩ := mem_instsAt.mp (show j ∈ f.instsAt t by rw [split]; simp)
  obtain ⟨z, there, able⟩ := firm.able t i mem
  cases found.symm.trans there
  refine ⟨l, j, rest, split, fun y mem => ?_, Inst.jump_spec able trait⟩
  rw [← Inst.isDebug_trait]
  rcases List.mem_append.mp mem with mem | mem
  · simpa using before y mem
  · simpa using List.filter_eq_nil_iff.mp after y mem

end Procedure

namespace Cleanup

open Procedure

variable {f g : Procedure} {p t x : BlockId}

private theorem allM_true {α : Type} {k : α → Except Fault Bool} {l : List α} (h : l.allM k = .ok true) :
    ∀ a ∈ l, k a = .ok true := by
  induction l with
  | nil => exact fun _ mem => absurd mem List.not_mem_nil
  | cons a l ih =>
    rw [List.allM] at h
    obtain ⟨here, first, rest⟩ := bind_ok_iff.mp h
    cases here with
    | false => cases rest
    | true => exact List.forall_mem_cons.mpr ⟨first, ih rest⟩

private theorem phisAgree_true (sited : f.Sited) (h : phisAgree f x t p = .ok true) {y : Inst}
    (mem : y ∈ f.instsAt x) (phi : y.op = .phi) (fromP : p ∈ y.sources) (fromT : t ∈ y.sources) :
    y.phiValue? p = y.phiValue? t := by
  obtain ⟨ids, asked, all⟩ := bind_ok_iff.mp h
  obtain ⟨i, there, found⟩ := mem_instsAt.mp mem
  have same := allM_true all i ((sited.mem_phis asked found).mpr ⟨there, phi⟩)
  obtain ⟨v, value⟩ := Option.isSome_iff_exists.mp (Inst.phiValue?_isSome.mpr fromT)
  obtain ⟨w, value'⟩ := Option.isSome_iff_exists.mp (Inst.phiValue?_isSome.mpr fromP)
  rw [found] at same
  simp only [bind, Except.bind, value, value', pure, Except.pure, Except.ok.injEq,
    decide_eq_true_eq] at same
  rw [value, value', same]

private theorem canRedirect_true (h : canRedirect f p t x = .ok true) : phisAgree f x t p = .ok true := by
  unfold canRedirect at h
  split at h
  · cases h
  · obtain ⟨into, -, rest⟩ := bind_ok_iff.mp h
    cases into with
    | true => cases rest
    | false => exact rest

private theorem redirect_retouches (firm : f.Firm) (sited : f.Sited) (hp : (f.blockAt p).dead = false)
    (hx : (f.blockAt x).dead = false) (away : x ≠ t) (h : redirect f p t x = .ok g) :
    Retouches (diverted p t x (decide (x ∉ (f.blockAt p).succs))) f g := by
  have named : x ≠ -1 := by
    rintro rfl
    cases hx
  obtain ⟨code, asked, rest⟩ := bind_ok_iff.mp h
  rw [code_eq hp] at asked
  cases asked
  obtain ⟨f₁, led, rest⟩ := bind_ok_iff.mp rest
  obtain ⟨f₂, removed, rest⟩ := bind_ok_iff.mp rest
  obtain ⟨old, asked, rest⟩ := bind_ok_iff.mp rest
  have leads := (retargetAll_gives firm named).holds f₁ led
  have firm₁ := leads.firm firm
  have first := (retouches_retarget sited led).trans (retouches_removeSucc removed)
  have known : f₂.block p = .ok (f₂.blockAt p) := by
    refine block_of_live ((firm₁.relinks_removeSucc removed).live ?_)
    rw [blockAt_congr leads.blocks]
    exact hp
  have edge : x ∈ (f₂.blockAt p).succs ↔ x ∈ (f.blockAt p).succs := by
    rw [mem_succs_removeSucc removed firm₁.toMeshed.paired, blockAt_congr leads.blocks]
    exact and_iff_left fun both => away both.2
  rw [isSucc_eq known, Except.ok.injEq] at asked
  have op : ∀ c (y : Inst), (if c = p then y.retarget t x else y).op = y.op := by
    intro c y
    split
    · exact Inst.op_retarget
    · rfl
  have kept : ∀ c (y : Inst), y.op = .phi → (if c = p then y.retarget t x else y) = y := by
    intro c y phi
    split
    · exact Inst.retarget_phi phi
    · rfl
  by_cases there : x ∈ (f.blockAt p).succs
  · have yes : old = true := by rw [← asked]; simpa using edge.mpr there
    rw [yes, if_pos rfl] at rest
    cases rest
    refine first.congr fun c y _ => ?_
    by_cases phi : y.op = .phi
    · simp only [diverted, phi, kept c y phi, there, not_true_eq_false, decide_false,
        Bool.false_eq_true, and_false, if_false, if_true]
    · simp only [diverted, phi, if_false]
  · have no : old = false := by rw [← asked]; simpa using fun there' => there (edge.mp there')
    rw [no, if_neg Bool.false_ne_true] at rest
    obtain ⟨f₃, added, rest⟩ := bind_ok_iff.mp rest
    have second := first.trans (retouches_addSucc added)
    have sited₃ : f₃.Sited := second.sited sited fun c y _ => op c y
    refine (second.trans (retouches_copyPhiInputs sited₃ rest)).congr fun c y _ => ?_
    rw [op]
    by_cases phi : y.op = .phi
    · simp only [diverted, phi, kept c y phi, there, not_false_eq_true, decide_true, and_true, if_true]
    · simp only [diverted, phi, and_false, if_false]

private theorem redirect_diverts (sound : f.Sound) (hp : (f.blockAt p).dead = false) (away : x ≠ t)
    (sole : Trait.soleJump? (f.traits t) = some x)
    (stops : f.next? p = some t → Trait.runsOn (f.traits p) = false)
    (agree : phisAgree f x t p = .ok true) (run : redirect f p t x = .ok g) :
    ∃ l j rest, Diverts p t x (decide (x ∉ (f.blockAt p).succs)) l j rest f g := by
  obtain ⟨l, j, rest, split, markers, op, free, target⟩ := split_of_soleJump? sound.toFirm sole
  have leads : f.GoesTo t x := ⟨l, .inl ⟨passable_debug fun y mem =>
    markers y (List.mem_append_left _ mem), j, rest, split, List.mem_of_head? target⟩⟩
  obtain ⟨ht, hx⟩ := sound.leads_live leads
  have retouches := redirect_retouches sound.toFirm sound.sited hp hx away run
  refine ⟨l, j, rest, (redirect_gives sound.toFirm hp ht hx).holds g run,
    retouches.sited sound.sited fun c y _ => (follows_diverted c y).op, retouches.instsAt, split, op,
    free, target, markers, away, fun next => not_passable_of_runsOn (stops next),
    decide_eq_true_iff, fun old y mem phi => ?_⟩
  have edge : x ∈ (f.blockAt p).succs := by simpa using old
  refine phisAgree_true sound.sited agree mem phi ?_ ?_
  · rw [sound.sources x y mem phi, ← sound.mutual_ends]
    exact edge
  · rw [sound.sources x y mem phi, ← sound.mutual_ends]
    exact sound.edges t x leads

private theorem tunnelFrom_sound {preds : List BlockId} (changed : Bool) (sound : f.Sound) (away : x ≠ t)
    (sole : Trait.soleJump? (f.traits t) = some x) (ht : t ∈ f.layout) (hx : x ∈ f.layout)
    (laid : ∀ p ∈ preds, p ∈ f.layout) :
    Traced.Holds (fun r => (r.1.Sound ∧ Alike f r.1) ∧ r.1.layout = f.layout)
      (tunnelFrom t x preds (f, changed)) := by
  induction preds generalizing f changed with
  | nil => exact .pure ⟨⟨sound, .refl f⟩, rfl⟩
  | cons p preds ih =>
    have live : ∀ c ∈ f.layout, (f.blockAt c).dead = false := fun c => (sound.laid c).mp
    have hp := live p (laid p List.mem_cons_self)
    have rest := fun c hc => laid c (List.mem_cons_of_mem p hc)
    rw [tunnelFrom]
    refine Traced.Holds.bind (P := fun can => can = true → (p ≠ t ∧
      (f.next? p = some t → Trait.runsOn (f.traits p) = false)) ∧ phisAgree f x t p = .ok true)
      (.ofExcept fun can run yes => ?_) fun can may => ?_
    · subst yes
      exact ⟨((canRedirect_gives (t := t) hp (sound.able p) (live x hx) (sound.able x)).holds true
        run).1 rfl, canRedirect_true run⟩
    · split
      · rename_i yes
        obtain ⟨⟨other, stops⟩, agree⟩ := may yes
        refine Traced.Holds.bind (P := fun g => (g.Sound ∧ Alike f g) ∧ Redirects p t x f g)
          (.ofExcept fun g run => ?_) ?_
        · obtain ⟨l, j, tail, diverts⟩ := redirect_diverts sound hp away sole stops agree run
          exact ⟨⟨diverts.sound sound stops, diverts.alike sound⟩, diverts.redirects⟩
        · rintro g ⟨⟨sound', alike⟩, redirects⟩
          refine .after fun _ => ?_
          have layout := redirects.layout
          have sole' : Trait.soleJump? (g.traits t) = some x := by
            rw [redirects.traits, if_neg (Ne.symm other)]
            exact sole
          rw [← layout] at ht hx
          intro log r log' run
          obtain ⟨⟨soundR, alikeR⟩, layoutR⟩ := ih true sound' sole' ht hx
            (fun c hc => layout ▸ rest c hc) log r log' run
          exact ⟨⟨soundR, alike.trans alikeR⟩, layoutR.trans layout⟩
      · exact ih changed sound sole ht hx rest

theorem tunnelThrough_sound (isEntry : BlockId → Bool) {l : List BlockId} (changed : Bool)
    (sound : f.Sound) (laid : ∀ t ∈ l, t ∈ f.layout) :
    Traced.Holds (fun r => r.1.Sound ∧ Alike f r.1) (tunnelThrough isEntry l (f, changed)) := by
  induction l generalizing f changed with
  | nil => exact .pure ⟨sound, .refl f⟩
  | cons t l ih =>
    have ht := laid t List.mem_cons_self
    have live := (sound.laid t).mp ht
    have rest := fun c hc => laid c (List.mem_cons_of_mem t hc)
    rw [tunnelThrough]
    split
    · exact ih changed sound rest
    · refine Traced.Holds.bind (P := fun found => found = Trait.soleJump? (f.traits t))
        (.ofExcept fun found run => ?_) fun found sole => ?_
      · rw [onlyJump?_eq live (sound.able t)] at run
        cases run
        rfl
      · split
        · exact ih changed sound rest
        · rename_i x
          split
          · exact ih changed sound rest
          · rename_i away
            obtain ⟨s, edge, goal⟩ := sound.goal t ht (Trait.plain_of_soleJump? sole.symm)
            rw [Procedure.goal, Trait.firstJump?_of_soleJump? sole.symm] at goal
            cases goal
            have hx := (sound.laid x).mpr (sound.live t x edge)
            refine Traced.Holds.bind (P := fun preds => ∀ p ∈ preds, p ∈ f.layout)
              (.ofExcept fun preds run p hp => ?_) fun preds preds_laid => ?_
            · rw [preds_eq live] at run
              cases run
              exact (sound.laid p).mpr (sound.toMeshed.live ((sound.mutual_ends p t).mpr hp))
            · refine (tunnelFrom_sound changed sound away sole.symm ht hx preds_laid).bind ?_
              rintro ⟨g, changed'⟩ ⟨⟨sound', alike⟩, layout⟩ log r log' run
              obtain ⟨soundR, alikeR⟩ := ih changed' sound' (fun c hc => layout ▸ rest c hc) log r log' run
              exact ⟨soundR, alike.trans alikeR⟩

end Cleanup

end Predication
