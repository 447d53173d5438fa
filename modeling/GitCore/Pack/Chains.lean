import GitCore.Lib.Loop
import Mathlib.Data.Fintype.Card
import Mathlib.Data.List.FinRange

/-!
# Reused delta chains

`break_delta_chains` of `builtin/pack-objects.c`: a walk from every object towards its bases that
cuts cycles on the way down, and chains that are too long on the way back.
-/

namespace GitCore.Pack

inductive DfsState
  | unseen
  | active
  | done
  deriving DecidableEq

/-- The fields of the object entries that the walk reads and writes. The children of a base are the
list of its `delta_child` and their siblings. -/
structure PackState (α : Type) where
  delta : α → Option α
  children : α → List α
  depth : α → Nat
  dfsState : α → DfsState

variable {α : Type} [DecidableEq α]

def PackState.setDfsState (s : PackState α) (entry : α) (state : DfsState) : PackState α :=
  { s with dfsState := Function.update s.dfsState entry state }

def PackState.setDepth (s : PackState α) (entry : α) (depth : Nat) : PackState α :=
  { s with depth := Function.update s.depth entry depth }

def dropReusedDelta (s : PackState α) (entry : α) : PackState α :=
  { s with
    children := match s.delta entry with
      | some base => Function.update s.children base ((s.children base).filter (· ≠ entry))
      | none => s.children
    delta := Function.update s.delta entry none
    depth := Function.update s.depth entry 0 }

structure FirstPass (α : Type) where
  state : PackState α
  cur : Option α
  totalDepth : Nat

def firstPassStep (p : FirstPass α) : FirstPass α ⊕ Option (PackState α × Nat) :=
  match p.cur with
  | none => .inr (some (p.state, p.totalDepth))
  | some cur =>
    match p.state.dfsState cur with
    | .done => .inr (some (p.state, p.totalDepth + p.state.depth cur))
    | .active => .inr none
    | .unseen =>
      match p.state.delta cur with
      | none => .inr (some (p.state.setDfsState cur .done, p.totalDepth))
      | some base =>
        if (p.state.setDfsState cur .active).dfsState base = .active then
          .inr (some ((dropReusedDelta (p.state.setDfsState cur .active) cur).setDfsState cur .done, p.totalDepth))
        else .inl ⟨p.state.setDfsState cur .active, some base, p.totalDepth + 1⟩

structure SecondPass (α : Type) where
  state : PackState α
  cur : Option α
  totalDepth : Nat

/-- One round of the second loop. The depth field has room for every `--depth` that is allowed. -/
def secondPassStep (depth : Nat) (p : SecondPass α) : SecondPass α ⊕ Option (PackState α) :=
  match p.cur with
  | none => .inr (some p.state)
  | some cur =>
    match p.state.dfsState cur with
    | .done => .inr (some p.state)
    | .unseen => .inr none
    | .active =>
      .inl ⟨(if p.totalDepth % (depth + 1) = 0
          then dropReusedDelta (p.state.setDepth cur (p.totalDepth % (depth + 1))) cur
          else p.state.setDepth cur (p.totalDepth % (depth + 1))).setDfsState cur .done,
        p.state.delta cur, p.totalDepth - 1⟩

section Measure

variable [Fintype α]

def countState (s : PackState α) (state : DfsState) : Nat :=
  (Finset.univ.filter fun x => s.dfsState x = state).card

lemma countState_lt {s s' : PackState α} {state : DfsState} {entry : α} (h : s.dfsState entry = state)
    (h' : s'.dfsState entry ≠ state) (hother : ∀ x, x ≠ entry → s'.dfsState x = s.dfsState x) :
    countState s' state < countState s state := by
  refine Finset.card_lt_card ((Finset.ssubset_iff_of_subset fun x hx => ?_).mpr ⟨entry, ?_, ?_⟩)
  · rw [Finset.mem_filter] at hx ⊢
    have hne : x ≠ entry := by
      rintro rfl
      exact h' hx.2
    exact ⟨Finset.mem_univ x, (hother x hne).symm.trans hx.2⟩
  · exact Finset.mem_filter.mpr ⟨Finset.mem_univ _, h⟩
  · exact fun hmem => h' (Finset.mem_filter.mp hmem).2

lemma firstPassStep_lt (p p' : FirstPass α) (h : firstPassStep p = .inl p') :
    countState p'.state .unseen < countState p.state .unseen := by
  rw [firstPassStep] at h
  cases hcur : p.cur with
  | none => simp [hcur] at h
  | some cur =>
    rw [hcur] at h
    dsimp only at h
    cases hstate : p.state.dfsState cur with
    | done => simp [hstate] at h
    | active => simp [hstate] at h
    | unseen =>
      rw [hstate] at h
      dsimp only at h
      cases hdelta : p.state.delta cur with
      | none => simp [hdelta] at h
      | some base =>
        rw [hdelta] at h
        dsimp only at h
        split_ifs at h
        rw [← Sum.inl.inj h]
        refine countState_lt hstate ?_ fun x hx => ?_
        · simp [PackState.setDfsState]
        · simp [PackState.setDfsState, hx]

lemma secondPassStep_lt (depth : Nat) (p p' : SecondPass α) (h : secondPassStep depth p = .inl p') :
    countState p'.state .active < countState p.state .active := by
  rw [secondPassStep] at h
  cases hcur : p.cur with
  | none => simp [hcur] at h
  | some cur =>
    rw [hcur] at h
    dsimp only at h
    cases hstate : p.state.dfsState cur with
    | done => simp [hstate] at h
    | unseen => simp [hstate] at h
    | active =>
      rw [hstate] at h
      dsimp only at h
      rw [← Sum.inl.inj h]
      refine countState_lt hstate ?_ fun x hx => ?_
      · simp [PackState.setDfsState]
      · split_ifs <;> simp [PackState.setDfsState, PackState.setDepth, dropReusedDelta, hx]

def breakDeltaChains (depth : Nat) (s : PackState α) (entry : α) : Option (PackState α) :=
  (loop firstPassStep (fun p => countState p.state .unseen) firstPassStep_lt ⟨s, some entry, 0⟩).bind fun r =>
    loop (secondPassStep depth) (fun p => countState p.state .active) (secondPassStep_lt depth) ⟨r.1, some entry, r.2⟩

end Measure

/-- The second pass of `get_object_details`, over all objects of `to_pack`. -/
def breakAllDeltaChains {n : Nat} (depth : Nat) (s : PackState (Fin n)) : Option (PackState (Fin n)) :=
  (List.finRange n).foldlM (breakDeltaChains depth) s

end GitCore.Pack

/-!
# What breaking the chains leaves

Every object that is done has a chain that ends, and its depth is the length of that chain. One
call keeps this: its first loop finds a path of active entries down to an entry that is done, its
second loop numbers that path from its end.
-/

namespace GitCore.Pack

variable {α : Type}

inductive ChainLength (delta : α → Option α) : α → Nat → Prop
  | base {a : α} (h : delta a = none) : ChainLength delta a 0
  | link {a b : α} {n : Nat} (h : delta a = some b) (rest : ChainLength delta b n) : ChainLength delta a (n + 1)

variable {delta : α → Option α}

lemma ChainLength.unique {a : α} {m n : Nat} (h : ChainLength delta a m)
    (h' : ChainLength delta a n) : m = n := by
  induction h generalizing n with
  | base hbase =>
    cases h' with
    | base => rfl
    | link hlink => rw [hbase] at hlink; cases hlink
  | link hlink _ ih =>
    cases h' with
    | base hbase => rw [hbase] at hlink; cases hlink
    | link hlink' rest =>
      rw [hlink, Option.some_inj] at hlink'
      subst hlink'
      rw [ih rest]

variable {delta' : α → Option α}

lemma ChainLength.congr (P : Set α) (hclosed : ∀ a ∈ P, ∀ b, delta a = some b → b ∈ P)
    (hagree : ∀ a ∈ P, delta' a = delta a) {a : α} {n : Nat} (h : ChainLength delta a n) (ha : a ∈ P) :
    ChainLength delta' a n := by
  induction h with
  | base hbase => exact .base (by rw [hagree _ ha, hbase])
  | link hlink _ ih => exact .link (by rw [hagree _ ha, hlink]) (ih (hclosed _ ha _ hlink))

abbrev IsPath (delta : α → Option α) (path : List α) : Prop :=
  path.IsChain fun a b => delta a = some b

lemma isPath_congr {path : List α} {last : α} (hpath : IsPath delta (path ++ [last]))
    (h : ∀ a ∈ path, delta' a = delta a) : IsPath delta' (path ++ [last]) := by
  induction path with
  | nil => exact List.isChain_singleton last
  | cons a path ih =>
    obtain ⟨b, rest, hrest⟩ := List.exists_cons_of_ne_nil (show path ++ [last] ≠ [] by simp)
    have htail := ih hpath.tail fun x hx => h x (List.mem_cons_of_mem _ hx)
    rw [List.cons_append, hrest] at hpath ⊢
    rw [hrest] at htail
    refine List.isChain_cons_cons.mpr ⟨?_, htail⟩
    rw [h a List.mem_cons_self]
    exact (List.isChain_cons_cons.mp hpath).1

lemma ChainLength.le_of_path {path : List α} {last x : α} {m n : Nat}
    (hpath : IsPath delta (path ++ [last])) (hx : x ∈ path ++ [last]) (hlen : ChainLength delta x n)
    (hlast : ChainLength delta last m) : m ≤ n := by
  induction path generalizing x n with
  | nil =>
    rw [List.nil_append, List.mem_singleton] at hx
    subst hx
    exact (hlast.unique hlen).le
  | cons a path ih =>
    have htail : IsPath delta (path ++ [last]) := hpath.tail
    rcases List.mem_cons.mp hx with rfl | hx
    · obtain ⟨b, rest, hrest⟩ := List.exists_cons_of_ne_nil (show path ++ [last] ≠ [] by simp)
      rw [List.cons_append, hrest] at hpath
      have hlink := (List.isChain_cons_cons.mp hpath).1
      cases hlen with
      | base hbase =>
        rw [hbase] at hlink
        cases hlink
      | link hlink' hb =>
        rw [hlink, Option.some_inj] at hlink'
        subst hlink'
        exact (ih htail (by rw [hrest]; exact List.mem_cons_self) hb).trans (Nat.le_succ _)
    · exact ih htail hx hlen

variable [DecidableEq α]

/-- The state between two calls: no entry is active, the chains of the entries that are done are
numbered, and the others have not been touched. -/
structure Settled (original : α → Option α) (limit : Nat) (s : PackState α) : Prop where
  not_active : ∀ a, s.dfsState a ≠ .active
  chain : ∀ a, s.dfsState a = .done → ChainLength s.delta a (s.depth a)
  depth_le : ∀ a, s.dfsState a = .done → s.depth a ≤ limit
  base_done : ∀ a, s.dfsState a = .done → ∀ b, s.delta a = some b → s.dfsState b = .done
  depth_unseen : ∀ a, s.dfsState a = .unseen → s.depth a = 0
  link_original : ∀ a b, s.delta a = some b → original a = some b
  delta_unseen : ∀ a, s.dfsState a = .unseen → s.delta a = original a

section First

structure OnTheWay (s₀ : PackState α) (entry : α) (p : FirstPass α) (path : List α) (cur : α) : Prop where
  cur_eq : p.cur = some cur
  delta_eq : p.state.delta = s₀.delta
  depth_eq : p.state.depth = s₀.depth
  linked : IsPath s₀.delta (path ++ [cur])
  head : (path ++ [cur]).head? = some entry
  nodup : path.Nodup
  active : ∀ a, p.state.dfsState a = .active ↔ a ∈ path
  other : ∀ a, a ∉ path → p.state.dfsState a = s₀.dfsState a
  unseen : ∀ a ∈ path, s₀.dfsState a = .unseen
  cur_notMem : cur ∉ path
  total_eq : p.totalDepth = path.length

structure FirstDone (original : α → Option α) (limit : Nat) (s₀ s : PackState α) (entry : α) (total : Nat)
    (path : List α) (last : α) : Prop where
  linked : IsPath s.delta (path ++ [last])
  head : (path ++ [last]).head? = some entry
  nodup : (path ++ [last]).Nodup
  active : ∀ a, s.dfsState a = .active ↔ a ∈ path
  last_done : s.dfsState last = .done
  total_eq : total = path.length + s.depth last
  chain : ∀ a, s.dfsState a = .done → ChainLength s.delta a (s.depth a)
  depth_le : ∀ a, s.dfsState a = .done → s.depth a ≤ limit
  base_done : ∀ a, s.dfsState a = .done → ∀ b, s.delta a = some b → s.dfsState b = .done
  depth_unseen : ∀ a, s.dfsState a = .unseen → s.depth a = 0
  link_original : ∀ a b, s.delta a = some b → original a = some b
  delta_unseen : ∀ a, s.dfsState a = .unseen → s.delta a = original a
  kept : (∀ a, ∃ n, ChainLength s₀.delta a n) → s.delta = s₀.delta
  done_kept : ∀ a, s₀.dfsState a = .done → s.dfsState a = .done

variable {original : α → Option α} {limit : Nat} {s₀ : PackState α} {entry : α}

lemma firstDone_of_done (hs : Settled original limit s₀) {p : FirstPass α} {path : List α} {cur : α}
    (h : OnTheWay s₀ entry p path cur) (hdone : p.state.dfsState cur = .done) :
    FirstDone original limit s₀ p.state entry (p.totalDepth + p.state.depth cur) path cur := by
  have hstate : ∀ a, p.state.dfsState a ≠ .active → p.state.dfsState a = s₀.dfsState a := fun a ha =>
    h.other a fun hmem => ha ((h.active a).mpr hmem)
  refine ⟨?_, h.head, ?_, h.active, hdone, by rw [h.total_eq], fun a ha => ?_, fun a ha => ?_, fun a ha b hb => ?_,
    fun a ha => ?_, ?_, fun a ha => ?_, fun _ => h.delta_eq, fun a ha => ?_⟩
  · rw [h.delta_eq]
    exact h.linked
  · exact List.nodup_append.mpr ⟨h.nodup, List.nodup_singleton _, fun a ha b hb heq =>
      h.cur_notMem (by rw [← List.mem_singleton.mp hb, ← heq]; exact ha)⟩
  · rw [h.delta_eq, h.depth_eq]
    exact hs.chain a (by rw [← hstate a (by rw [ha]; decide), ha])
  · rw [h.depth_eq]
    exact hs.depth_le a (by rw [← hstate a (by rw [ha]; decide), ha])
  · have ha' : s₀.dfsState a = .done := by rw [← hstate a (by rw [ha]; decide), ha]
    have hb' := hs.base_done a ha' b (by rw [← h.delta_eq, hb])
    rw [h.other b (fun hmem => by rw [h.unseen b hmem] at hb'; cases hb'), hb']
  · rw [h.depth_eq]
    exact hs.depth_unseen a (by rw [← hstate a (by rw [ha]; decide), ha])
  · rw [h.delta_eq]
    exact hs.link_original
  · rw [h.delta_eq]
    exact hs.delta_unseen a (by rw [← hstate a (by rw [ha]; decide), ha])
  · rw [h.other a (fun hmem => by rw [h.unseen a hmem] at ha; cases ha), ha]

lemma firstDone_of_base (hs : Settled original limit s₀) {p : FirstPass α} {path : List α} {cur : α}
    (h : OnTheWay s₀ entry p path cur) (hunseen : p.state.dfsState cur = .unseen) {s : PackState α}
    (hdelta : s.delta = Function.update p.state.delta cur none) (hdepth : s.depth = Function.update p.state.depth cur 0)
    (hstates : s.dfsState = Function.update p.state.dfsState cur .done)
    (hkept : (∀ a, ∃ n, ChainLength s₀.delta a n) → s₀.delta cur = none) :
    FirstDone original limit s₀ s entry p.totalDepth path cur := by
  have hcur₀ : s₀.dfsState cur = .unseen := by rw [← h.other cur h.cur_notMem, hunseen]
  have hself : s.dfsState cur = .done := by rw [hstates, Function.update_self]
  have hother : ∀ a, a ≠ cur → s.dfsState a = p.state.dfsState a := fun a ha => by
    rw [hstates, Function.update_of_ne ha]
  have hdelta' : ∀ a, a ≠ cur → s.delta a = s₀.delta a := fun a ha => by
    rw [hdelta, Function.update_of_ne ha, h.delta_eq]
  have hcurDelta : s.delta cur = none := by rw [hdelta, Function.update_self]
  have hold : ∀ a, a ≠ cur → s.dfsState a ≠ .active → s₀.dfsState a = s.dfsState a := fun a ha hne => by
    rw [hother a ha] at hne ⊢
    exact (h.other a fun hmem => hne ((h.active a).mpr hmem)).symm
  have hne_of_done : ∀ a, s₀.dfsState a = .done → a ≠ cur := fun a ha heq => by
    rw [heq, hcur₀] at ha
    cases ha
  refine ⟨?_, h.head, ?_, fun a => ?_, hself, ?_, fun a ha => ?_, fun a ha => ?_, fun a ha b hb => ?_,
    fun a ha => ?_, fun a b hb => ?_, fun a ha => ?_, fun hall => ?_, fun a ha => ?_⟩
  · exact isPath_congr h.linked fun a ha => hdelta' a fun heq => h.cur_notMem (heq ▸ ha)
  · exact List.nodup_append.mpr ⟨h.nodup, List.nodup_singleton _, fun a ha b hb heq =>
      h.cur_notMem (by rw [← List.mem_singleton.mp hb, ← heq]; exact ha)⟩
  · by_cases ha : a = cur
    · rw [ha, hself]
      exact ⟨fun hfalse => (by cases hfalse), fun hmem => absurd hmem h.cur_notMem⟩
    · rw [hother a ha]
      exact h.active a
  · rw [h.total_eq, hdepth, Function.update_self, Nat.add_zero]
  · by_cases hac : a = cur
    · rw [hac, hdepth, Function.update_self]
      exact .base hcurDelta
    · have ha₀ : s₀.dfsState a = .done := by rw [hold a hac (by rw [ha]; decide), ha]
      rw [hdepth, Function.update_of_ne hac, h.depth_eq]
      exact (hs.chain a ha₀).congr {x | s₀.dfsState x = .done} hs.base_done
        (fun x hx => hdelta' x (hne_of_done x hx)) ha₀
  · by_cases hac : a = cur
    · rw [hac, hdepth, Function.update_self]
      exact Nat.zero_le _
    · rw [hdepth, Function.update_of_ne hac, h.depth_eq]
      exact hs.depth_le a (by rw [hold a hac (by rw [ha]; decide), ha])
  · have hac : a ≠ cur := fun heq => by rw [heq, hcurDelta] at hb; cases hb
    have ha₀ : s₀.dfsState a = .done := by rw [hold a hac (by rw [ha]; decide), ha]
    have hb₀ := hs.base_done a ha₀ b (by rw [← hdelta' a hac, hb])
    have hbc := hne_of_done b hb₀
    rw [hother b hbc, h.other b (fun hmem => by rw [h.unseen b hmem] at hb₀; cases hb₀), hb₀]
  · have hac : a ≠ cur := fun heq => by rw [heq, hself] at ha; cases ha
    rw [hdepth, Function.update_of_ne hac, h.depth_eq]
    exact hs.depth_unseen a (by rw [hold a hac (by rw [ha]; decide), ha])
  · have hac : a ≠ cur := fun heq => by rw [heq, hcurDelta] at hb; cases hb
    exact hs.link_original a b (by rw [← hdelta' a hac, hb])
  · have hac : a ≠ cur := fun heq => by rw [heq, hself] at ha; cases ha
    rw [hdelta' a hac]
    exact hs.delta_unseen a (by rw [hold a hac (by rw [ha]; decide), ha])
  · rw [hdelta, h.delta_eq, ← hkept hall, Function.update_eq_self]
  · rw [hother a (hne_of_done a ha), h.other a (fun hmem => by rw [h.unseen a hmem] at ha; cases ha), ha]

lemma false_of_cycle {path : List α} {cur base : α} (hpath : IsPath s₀.delta (path ++ [cur]))
    (hdelta : s₀.delta cur = some base) (hbase : base ∈ path ++ [cur]) (hall : ∀ a, ∃ n, ChainLength s₀.delta a n) :
    False := by
  obtain ⟨n, hn⟩ := hall base
  have hle := hn.le_of_path hpath hbase (.link hdelta hn)
  exact Nat.not_succ_le_self n hle

lemma OnTheWay.snoc {p : FirstPass α} {path : List α} {cur base : α} (h : OnTheWay s₀ entry p path cur)
    (hunseen : p.state.dfsState cur = .unseen) (hdelta : p.state.delta cur = some base)
    (hbase : (p.state.setDfsState cur .active).dfsState base ≠ .active) :
    OnTheWay s₀ entry ⟨p.state.setDfsState cur .active, some base, p.totalDepth + 1⟩ (path ++ [cur]) base := by
  have hstates : ∀ a, a ≠ cur → (p.state.setDfsState cur .active).dfsState a = p.state.dfsState a := fun a ha =>
    Function.update_of_ne ha _ _
  have hcur : (p.state.setDfsState cur .active).dfsState cur = .active := Function.update_self _ _ _
  have hbaseNe : base ≠ cur := fun heq => hbase (heq ▸ hcur)
  refine ⟨rfl, h.delta_eq, h.depth_eq, ?_, ?_, ?_, fun a => ?_, fun a ha => ?_, fun a ha => ?_, ?_, ?_⟩
  · refine List.isChain_append.mpr ⟨h.linked, List.isChain_singleton base, fun a ha b hb => ?_⟩
    rw [List.getLast?_concat, Option.mem_def, Option.some_inj] at ha
    rw [List.head?_cons, Option.mem_def, Option.some_inj] at hb
    rw [← ha, ← hb, ← h.delta_eq, hdelta]
  · rw [List.head?_append, h.head]
    rfl
  · exact List.nodup_append.mpr ⟨h.nodup, List.nodup_singleton _, fun a ha b hb heq =>
      h.cur_notMem (by rw [← List.mem_singleton.mp hb, ← heq]; exact ha)⟩
  · rw [List.mem_append, List.mem_singleton]
    by_cases ha : a = cur
    · rw [ha, hcur]
      exact ⟨fun _ => .inr rfl, fun _ => rfl⟩
    · rw [hstates a ha, h.active a, or_iff_left ha]
  · rw [List.mem_append, List.mem_singleton, not_or] at ha
    rw [hstates a ha.2, h.other a ha.1]
  · rcases List.mem_append.mp ha with ha | ha
    · exact h.unseen a ha
    · rw [List.mem_singleton.mp ha, ← h.other cur h.cur_notMem, hunseen]
  · rw [List.mem_append, List.mem_singleton, not_or]
    refine ⟨fun hmem => hbase ?_, hbaseNe⟩
    rw [hstates base hbaseNe, (h.active base).mpr hmem]
  · rw [List.length_append, List.length_singleton, h.total_eq]

lemma firstLoop [Fintype α] (hs : Settled original limit s₀) (entry : α) :
    ∃ s total path last,
      loop firstPassStep (fun p => countState p.state .unseen) firstPassStep_lt ⟨s₀, some entry, 0⟩ = some (s, total) ∧
        FirstDone original limit s₀ s entry total path last := by
  have hpost := @loop_inv _ _ firstPassStep (fun p => countState p.state .unseen) firstPassStep_lt
    (fun p => ∃ path cur, OnTheWay s₀ entry p path cur)
    (fun r => ∃ s total path last, r = some (s, total) ∧ FirstDone original limit s₀ s entry total path last)
  refine hpost ?_ ?_ ⟨[], entry, rfl, rfl, rfl, List.isChain_singleton entry, rfl, List.nodup_nil, fun a => ?_,
    fun _ _ => rfl, fun a ha => absurd ha List.not_mem_nil, List.not_mem_nil, rfl⟩
  · rintro p p' ⟨path, cur, h⟩ hp
    simp only [firstPassStep, h.cur_eq] at hp
    cases hstate : p.state.dfsState cur with
    | done => simp [hstate] at hp
    | active => simp [hstate] at hp
    | unseen =>
      cases hdelta : p.state.delta cur with
      | none => simp [hstate, hdelta] at hp
      | some base =>
        simp only [hstate, hdelta] at hp
        split_ifs at hp with hbase
        rw [← Sum.inl.inj hp]
        exact ⟨path ++ [cur], base, h.snoc hstate hdelta hbase⟩
  · rintro p r ⟨path, cur, h⟩ hp
    simp only [firstPassStep, h.cur_eq] at hp
    cases hstate : p.state.dfsState cur with
    | done =>
      rw [hstate] at hp
      exact ⟨_, _, path, cur, (Sum.inr.inj hp).symm, firstDone_of_done hs h hstate⟩
    | active => exact absurd ((h.active cur).mp hstate) h.cur_notMem
    | unseen =>
      have hcur₀ : s₀.dfsState cur = .unseen := by rw [← h.other cur h.cur_notMem, hstate]
      have hdepth : p.state.depth cur = 0 := by rw [h.depth_eq, hs.depth_unseen cur hcur₀]
      cases hdelta : p.state.delta cur with
      | none =>
        simp only [hstate, hdelta] at hp
        refine ⟨_, _, path, cur, (Sum.inr.inj hp).symm, firstDone_of_base hs h hstate ?_ ?_ rfl fun _ => ?_⟩
        · rw [← hdelta, Function.update_eq_self]
          rfl
        · rw [← hdepth, Function.update_eq_self]
          rfl
        · rw [← h.delta_eq, hdelta]
      | some base =>
        simp only [hstate, hdelta] at hp
        split_ifs at hp with hbase
        refine ⟨_, _, path, cur, (Sum.inr.inj hp).symm, firstDone_of_base hs h hstate rfl rfl ?_ fun hall => ?_⟩
        · funext a
          by_cases ha : a = cur
          · simp [PackState.setDfsState, dropReusedDelta, ha]
          · simp [PackState.setDfsState, dropReusedDelta, ha]
        · refine (false_of_cycle h.linked (by rw [← h.delta_eq, hdelta]) ?_ hall).elim
          rw [List.mem_append, List.mem_singleton]
          by_cases hself : base = cur
          · exact .inr hself
          · have hactive := (Function.update_of_ne hself _ _).symm.trans hbase
            exact .inl ((h.active base).mp hactive)
  · exact ⟨fun ha => absurd ha (hs.not_active a), fun ha => absurd ha List.not_mem_nil⟩

end First

section Second

variable {limit : Nat}

structure Numbered (delta : α → Option α) (depth : α → Nat) (limit : Nat) (P : Set α) : Prop where
  chain : ∀ a ∈ P, ChainLength delta a (depth a)
  depth_le : ∀ a ∈ P, depth a ≤ limit
  closed : ∀ a ∈ P, ∀ b, delta a = some b → b ∈ P

lemma Numbered.congr {depth depth' : α → Nat} {P : Set α}
    (h : Numbered delta depth limit P) (hdelta : ∀ a ∈ P, delta' a = delta a) (hdepth : ∀ a ∈ P, depth' a = depth a) :
    Numbered delta' depth' limit P where
  chain a ha := by
    rw [hdepth a ha]
    exact (h.chain a ha).congr P h.closed hdelta ha
  depth_le a ha := by
    rw [hdepth a ha]
    exact h.depth_le a ha
  closed a ha b hb := h.closed a ha b (by rw [← hdelta a ha, hb])

lemma Numbered.insert {depth : α → Nat} {P : Set α} (h : Numbered delta depth limit P) {a : α}
    (hchain : ChainLength delta a (depth a)) (hle : depth a ≤ limit) (hbase : ∀ b, delta a = some b → b ∈ P) :
    Numbered delta depth limit (Set.insert a P) where
  chain x hx := by
    rcases hx with rfl | hx
    · exact hchain
    · exact h.chain x hx
  depth_le x hx := by
    rcases hx with rfl | hx
    · exact hle
    · exact h.depth_le x hx
  closed x hx b hb := by
    rcases hx with rfl | hx
    · exact .inr (hbase b hb)
    · exact .inr (h.closed x hx b hb)

structure PathNumbered (limit : Nat) (s s' : PackState α) (path : List α) (last : α) (total : Nat) (P : Set α) : Prop where
  delta_other : ∀ a, a ∉ path → s'.delta a = s.delta a
  depth_other : ∀ a, a ∉ path → s'.depth a = s.depth a
  state_other : ∀ a, a ∉ path → s'.dfsState a = s.dfsState a
  path_done : ∀ a ∈ path, s'.dfsState a = .done
  numbered : Numbered s'.delta s'.depth limit (P ∪ {a | a ∈ path})
  depth_head : ∀ a, (path ++ [last]).head? = some a → s'.depth a = total % (limit + 1)
  link : ∀ a b, s'.delta a = some b → s.delta a = some b
  kept : total ≤ limit → s'.delta = s.delta

def numberEntry (limit : Nat) (s : PackState α) (cur : α) (totalDepth : Nat) : PackState α :=
  (if totalDepth % (limit + 1) = 0
    then dropReusedDelta (s.setDepth cur (totalDepth % (limit + 1))) cur
    else s.setDepth cur (totalDepth % (limit + 1))).setDfsState cur .done

lemma numberEntry_other {s : PackState α} {cur a : α} (totalDepth : Nat) (ha : a ≠ cur) :
    (numberEntry limit s cur totalDepth).delta a = s.delta a ∧
      (numberEntry limit s cur totalDepth).depth a = s.depth a ∧
      (numberEntry limit s cur totalDepth).dfsState a = s.dfsState a := by
  rw [numberEntry]
  split_ifs <;> simp [PackState.setDfsState, PackState.setDepth, dropReusedDelta, ha]

lemma numberEntry_depth (s : PackState α) (cur : α) (totalDepth : Nat) :
    (numberEntry limit s cur totalDepth).depth cur = totalDepth % (limit + 1) := by
  rw [numberEntry]
  split_ifs with h
  · simp [PackState.setDfsState, dropReusedDelta, h]
  · simp [PackState.setDfsState, PackState.setDepth]

lemma numberEntry_state (s : PackState α) (cur : α) (totalDepth : Nat) :
    (numberEntry limit s cur totalDepth).dfsState cur = .done := by
  simp [numberEntry, PackState.setDfsState]

lemma numberEntry_delta (s : PackState α) (cur : α) (totalDepth : Nat) :
    (numberEntry limit s cur totalDepth).delta cur =
      if totalDepth % (limit + 1) = 0 then none else s.delta cur := by
  rw [numberEntry]
  split_ifs <;> simp [PackState.setDfsState, PackState.setDepth, dropReusedDelta]

lemma add_one_mod_of_ne {t m : Nat} (h : (t + 1) % (m + 1) ≠ 0) : (t + 1) % (m + 1) = t % (m + 1) + 1 := by
  rw [← Nat.mod_add_mod] at h ⊢
  have hlt : t % (m + 1) < m + 1 := Nat.mod_lt t (Nat.succ_pos m)
  refine Nat.mod_eq_of_lt (lt_of_le_of_ne hlt fun heq => h ?_)
  rw [heq, Nat.mod_self]

lemma secondLoop [Fintype α] {path : List α} {last : α} {s : PackState α} {total : Nat} {P : Set α}
    (hlinked : IsPath s.delta (path ++ [last])) (hnodup : path.Nodup) (hactive : ∀ a ∈ path, s.dfsState a = .active)
    (hlast : last ∈ P) (hdone : s.dfsState last = .done) (hdisj : ∀ a ∈ path, a ∉ P)
    (hP : Numbered s.delta s.depth limit P) (htotal : total = path.length + s.depth last) :
    ∃ s', loop (secondPassStep limit) (fun p => countState p.state .active) (secondPassStep_lt limit)
        ⟨s, (path ++ [last]).head?, total⟩ = some s' ∧ PathNumbered limit s s' path last total P := by
  induction path generalizing s total with
  | nil =>
    rw [List.length_nil, Nat.zero_add] at htotal
    refine ⟨s, loop_of_inr ?_, fun _ _ => rfl, fun _ _ => rfl, fun _ _ => rfl, fun a ha => absurd ha List.not_mem_nil,
      ?_, fun a ha => ?_, fun _ _ hb => hb, fun _ => rfl⟩
    · simp [secondPassStep, hdone]
    · simpa using hP
    · rw [List.nil_append, List.head?_cons, Option.some_inj] at ha
      rw [← ha, htotal, Nat.mod_eq_of_lt (Nat.lt_succ_of_le (hP.depth_le last hlast))]
  | cons a path ih =>
    obtain ⟨hanotin, hnodup'⟩ := List.nodup_cons.mp hnodup
    have hlastne : last ≠ a := fun heq => hdisj a List.mem_cons_self (heq ▸ hlast)
    have hPne : ∀ x ∈ P, x ≠ a := fun x hx heq => hdisj a List.mem_cons_self (heq ▸ hx)
    have hnext : s.delta a = (path ++ [last]).head? := by
      obtain ⟨b, rest, hrest⟩ := List.exists_cons_of_ne_nil (show path ++ [last] ≠ [] by simp)
      rw [List.cons_append, hrest] at hlinked
      rw [hrest, List.head?_cons, (List.isChain_cons_cons.mp hlinked).1]
    have hother := fun (x : α) (hx : x ≠ a) => @numberEntry_other α _ limit s a x total hx
    have hstep : secondPassStep limit ⟨s, ((a :: path) ++ [last]).head?, total⟩ =
        .inl ⟨numberEntry limit s a total, (path ++ [last]).head?, total - 1⟩ := by
      simp only [secondPassStep, List.cons_append, List.head?_cons, hactive a List.mem_cons_self, ← hnext]
      rfl
    obtain ⟨s', hrun, h⟩ := @ih (numberEntry limit s a total) (total - 1)
      (isPath_congr hlinked.tail fun x hx => (hother x fun heq => hanotin (heq ▸ hx)).1) hnodup'
      (fun x hx => by
        rw [(hother x fun heq => hanotin (heq ▸ hx)).2.2]
        exact hactive x (List.mem_cons_of_mem _ hx))
      (by rw [(hother last hlastne).2.2, hdone]) (fun x hx => hdisj x (List.mem_cons_of_mem _ hx))
      (hP.congr (fun x hx => (hother x (hPne x hx)).1) fun x hx => (hother x (hPne x hx)).2.1)
      (by rw [(hother last hlastne).2.1, htotal, List.length_cons]; omega)
    have hadepth : s'.depth a = total % (limit + 1) := by rw [h.depth_other a hanotin, numberEntry_depth]
    have hadelta : s'.delta a = if total % (limit + 1) = 0 then none else s.delta a := by
      rw [h.delta_other a hanotin, numberEntry_delta]
    have hbase : ∀ b, s'.delta a = some b → (path ++ [last]).head? = some b ∧ total % (limit + 1) ≠ 0 := fun b hb => by
      rw [hadelta] at hb
      split_ifs at hb with hmod
      exact ⟨by rw [← hnext, hb], hmod⟩
    have hmem : ∀ b, (path ++ [last]).head? = some b → b ∈ P ∪ {x | x ∈ path} := fun b hb => by
      rcases List.mem_append.mp (List.mem_of_mem_head? hb) with hb | hb
      · exact .inr hb
      · exact .inl (List.mem_singleton.mp hb ▸ hlast)
    have hset : P ∪ {x | x ∈ a :: path} = Set.insert a (P ∪ {x | x ∈ path}) := by
      ext x
      simp only [Set.mem_union, Set.mem_setOf_eq, List.mem_cons]
      exact or_left_comm
    refine ⟨s', (loop_of_inl hstep).trans hrun, fun x hx => ?_, fun x hx => ?_, fun x hx => ?_, fun x hx => ?_, ?_,
      fun x hx => ?_, fun x b hb => ?_, fun hle => ?_⟩
    · rw [List.mem_cons, not_or] at hx
      rw [h.delta_other x hx.2, (hother x hx.1).1]
    · rw [List.mem_cons, not_or] at hx
      rw [h.depth_other x hx.2, (hother x hx.1).2.1]
    · rw [List.mem_cons, not_or] at hx
      rw [h.state_other x hx.2, (hother x hx.1).2.2]
    · rcases List.mem_cons.mp hx with rfl | hx
      · rw [h.state_other x hanotin, numberEntry_state]
      · exact h.path_done x hx
    · rw [hset]
      refine h.numbered.insert ?_ ?_ fun b hb => hmem b (hbase b hb).1
      · rw [hadepth]
        cases hb : s'.delta a with
        | none =>
          have hmod : total % (limit + 1) = 0 := by
            by_contra hmod
            rw [hadelta, if_neg hmod, hnext, List.head?_eq_none_iff] at hb
            exact absurd hb (by simp)
          rw [hmod]
          exact .base hb
        | some b =>
          obtain ⟨hhead, hmod⟩ := hbase b hb
          have hrest := h.numbered.chain b (hmem b hhead)
          rw [h.depth_head b hhead] at hrest
          have hsucc : total % (limit + 1) = (total - 1) % (limit + 1) + 1 := by
            obtain ⟨t, rfl⟩ : ∃ t, total = t + 1 := ⟨path.length + s.depth last, by rw [htotal, List.length_cons]; omega⟩
            exact add_one_mod_of_ne hmod
          rw [hsucc]
          exact .link hb hrest
      · rw [hadepth]
        exact Nat.le_of_lt_succ (Nat.mod_lt _ (Nat.succ_pos _))
    · rw [List.cons_append, List.head?_cons, Option.some_inj] at hx
      rw [← hx, hadepth]
    · have hb' := h.link x b hb
      by_cases hx : x = a
      · rw [hx, numberEntry_delta] at hb'
        split_ifs at hb'
        rw [hx, hb']
      · rw [← (hother x hx).1, hb']
    · rw [h.kept (by omega)]
      funext x
      by_cases hx : x = a
      · have hpos : total % (limit + 1) ≠ 0 := by
          rw [Nat.mod_eq_of_lt (by omega), htotal, List.length_cons]
          omega
        rw [hx, numberEntry_delta, if_neg hpos]
      · exact (hother x hx).1

end Second

section Calls

variable {original : α → Option α} {limit : Nat}

lemma ChainLength.of_path {path : List α} {last entry : α} {n : Nat}
    (hpath : IsPath delta (path ++ [last])) (hhead : (path ++ [last]).head? = some entry)
    (hlast : ChainLength delta last n) : ChainLength delta entry (path.length + n) := by
  induction path generalizing entry with
  | nil =>
    rw [List.nil_append, List.head?_cons, Option.some_inj] at hhead
    rw [← hhead, List.length_nil, Nat.zero_add]
    exact hlast
  | cons a path ih =>
    rw [List.cons_append, List.head?_cons, Option.some_inj] at hhead
    obtain ⟨b, rest, hrest⟩ := List.exists_cons_of_ne_nil (show path ++ [last] ≠ [] by simp)
    have hb := @ih b hpath.tail (by rw [hrest, List.head?_cons])
    rw [List.cons_append, hrest] at hpath
    rw [← hhead, List.length_cons, Nat.add_right_comm]
    exact .link (List.isChain_cons_cons.mp hpath).1 hb

theorem breakDeltaChains_settled [Fintype α] {s : PackState α} (hs : Settled original limit s) (entry : α) :
    ∃ s', breakDeltaChains limit s entry = some s' ∧ Settled original limit s' ∧ s'.dfsState entry = .done ∧
      (∀ a, s.dfsState a = .done → s'.dfsState a = .done) ∧
      ((∀ a, ∃ n, n ≤ limit ∧ ChainLength s.delta a n) → s'.delta = s.delta) := by
  obtain ⟨s₁, total, path, last, hfirst, h⟩ := firstLoop hs entry
  obtain ⟨hpathNodup, -, hlastNotin⟩ := List.nodup_append.mp h.nodup
  have hnotin : ∀ a, s₁.dfsState a ≠ .active → a ∉ path := fun a ha hmem => ha ((h.active a).mpr hmem)
  obtain ⟨s', hsecond, h'⟩ := @secondLoop _ _ limit _ path last s₁ total {a | s₁.dfsState a = .done} h.linked hpathNodup
    (fun a ha => (h.active a).mpr ha) h.last_done h.last_done
    (fun a ha hdone => by
      rw [Set.mem_setOf_eq, (h.active a).mpr ha] at hdone
      cases hdone) ⟨h.chain, h.depth_le, h.base_done⟩ h.total_eq
  have hdone : ∀ a, s'.dfsState a = .done ↔ a ∈ {a | s₁.dfsState a = .done} ∪ {a | a ∈ path} := fun a => by
    by_cases ha : a ∈ path
    · exact ⟨fun _ => .inr ha, fun _ => h'.path_done a ha⟩
    · rw [h'.state_other a ha]
      exact ⟨.inl, fun hmem => hmem.resolve_right ha⟩
  have hunseen : ∀ a, s'.dfsState a = .unseen → a ∉ path := fun a ha hmem => by
    rw [h'.path_done a hmem] at ha
    cases ha
  refine ⟨s', ?_, ⟨fun a ha => ?_, fun a ha => h'.numbered.chain a ((hdone a).mp ha),
    fun a ha => h'.numbered.depth_le a ((hdone a).mp ha),
    fun a ha b hb => (hdone b).mpr (h'.numbered.closed a ((hdone a).mp ha) b hb), fun a ha => ?_,
    fun a b hb => h.link_original a b (h'.link a b hb), fun a ha => ?_⟩, ?_, fun a ha => ?_, fun hall => ?_⟩
  · rw [breakDeltaChains, hfirst, Option.bind_some, ← h.head]
    exact hsecond
  · by_cases hmem : a ∈ path
    · rw [h'.path_done a hmem] at ha
      cases ha
    · rw [h'.state_other a hmem] at ha
      exact hmem ((h.active a).mp ha)
  · have hmem := hunseen a ha
    rw [h'.state_other a hmem] at ha
    rw [h'.depth_other a hmem, h.depth_unseen a ha]
  · have hmem := hunseen a ha
    rw [h'.state_other a hmem] at ha
    rw [h'.delta_other a hmem, h.delta_unseen a ha]
  · rcases List.mem_append.mp (List.mem_of_mem_head? h.head) with hmem | hmem
    · exact h'.path_done entry hmem
    · rw [hdone, List.mem_singleton.mp hmem]
      exact .inl h.last_done
  · exact (hdone a).mpr (.inl (h.done_kept a ha))
  · have hdelta := h.kept fun a => (hall a).imp fun n hn => hn.2
    have htotal : total ≤ limit := by
      obtain ⟨n, hn, hlen⟩ := hall entry
      rw [← hdelta] at hlen
      rw [h.total_eq, ← hlen.unique (.of_path h.linked h.head (h.chain last h.last_done))]
      exact hn
    rw [h'.kept htotal, hdelta]

lemma foldlM_settled [Fintype α] (entries : List α) {s : PackState α} (hs : Settled original limit s) :
    ∃ s', entries.foldlM (breakDeltaChains limit) s = some s' ∧ Settled original limit s' ∧
      (∀ a, a ∈ entries ∨ s.dfsState a = .done → s'.dfsState a = .done) ∧
      ((∀ a, ∃ n, n ≤ limit ∧ ChainLength s.delta a n) → s'.delta = s.delta) := by
  induction entries generalizing s with
  | nil => exact ⟨s, rfl, hs, fun a ha => ha.resolve_left List.not_mem_nil, fun _ => rfl⟩
  | cons entry entries ih =>
    obtain ⟨s₁, hcall, hs₁, hentry, hkept, hdelta⟩ := breakDeltaChains_settled hs entry
    obtain ⟨s', hrun, hs', hdone, hdelta'⟩ := ih hs₁
    refine ⟨s', ?_, hs', fun a ha => ?_, fun hall => ?_⟩
    · rw [List.foldlM_cons, hcall]
      exact hrun
    · rcases ha with ha | ha
      · rcases List.mem_cons.mp ha with rfl | ha
        · exact hdone a (.inr hentry)
        · exact hdone a (.inl ha)
      · exact hdone a (.inr (hkept a ha))
    · have heq := hdelta hall
      rw [hdelta' (by rw [heq]; exact hall), heq]

def IsCycle (delta : α → Option α) (C : Set α) : Prop :=
  C.Nonempty ∧ ∀ a ∈ C, ∃ b ∈ C, delta a = some b

lemma ChainLength.notMem_cycle {C : Set α} (hC : IsCycle delta C) {a : α} {n : Nat}
    (h : ChainLength delta a n) : a ∉ C := by
  induction h with
  | base hbase =>
    intro ha
    obtain ⟨b, -, hb⟩ := hC.2 _ ha
    rw [hbase] at hb
    cases hb
  | link hlink _ ih =>
    intro ha
    obtain ⟨b, hbC, hb⟩ := hC.2 _ ha
    rw [hlink, Option.some_inj] at hb
    exact ih (hb ▸ hbC)

end Calls

def startState {n : Nat} (delta : Fin n → Option (Fin n)) (children : Fin n → List (Fin n)) : PackState (Fin n) where
  delta := delta
  children := children
  depth := fun _ => 0
  dfsState := fun _ => .unseen

lemma settled_startState {n : Nat} (limit : Nat) (delta : Fin n → Option (Fin n)) (children : Fin n → List (Fin n)) :
    Settled delta limit (startState delta children) where
  not_active _ h := by cases h
  chain _ h := by cases h
  depth_le _ h := by cases h
  base_done _ h := by cases h
  depth_unseen _ _ := rfl
  link_original _ _ h := h
  delta_unseen _ _ := rfl

/-- After all calls every chain ends and is numbered, and only links on cycles and of long chains
have been cut. -/
theorem breakAllDeltaChains_spec {n : Nat} (limit : Nat) (delta : Fin n → Option (Fin n))
    (children : Fin n → List (Fin n)) :
    ∃ s, breakAllDeltaChains limit (startState delta children) = some s ∧
      (∀ C, ¬IsCycle s.delta C) ∧
      (∀ a, ChainLength s.delta a (s.depth a) ∧ s.depth a ≤ limit) ∧
      (∀ a b, s.delta a = some b → delta a = some b) ∧
      (∀ C, IsCycle delta C → ∃ a ∈ C, s.delta a = none) ∧
      ((∀ a, ∃ k, k ≤ limit ∧ ChainLength delta a k) → s.delta = delta) := by
  obtain ⟨s, hrun, hs, hdone, hkept⟩ := foldlM_settled (List.finRange n) (settled_startState limit delta children)
  have hall : ∀ a, s.dfsState a = .done := fun a => hdone a (.inl (List.mem_finRange a))
  refine ⟨s, hrun, fun C hC => ?_, fun a => ⟨hs.chain a (hall a), hs.depth_le a (hall a)⟩, hs.link_original,
    fun C hC => ?_, hkept⟩
  · obtain ⟨a, ha⟩ := hC.1
    exact (hs.chain a (hall a)).notMem_cycle hC ha
  · by_contra hnot
    refine ChainLength.notMem_cycle (C := C) ⟨hC.1, fun a ha => ?_⟩ (hs.chain hC.1.some (hall _)) hC.1.some_mem
    obtain ⟨b, hb, hlink⟩ := hC.2 a ha
    cases hs' : s.delta a with
    | none => exact absurd ⟨a, ha, hs'⟩ hnot
    | some b' =>
      have hb' := hs.link_original a b' hs'
      rw [hlink] at hb'
      exact ⟨b', Option.some_inj.mp hb' ▸ hb, rfl⟩

end GitCore.Pack
