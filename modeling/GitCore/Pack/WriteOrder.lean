import GitCore.Pack.Header
import Mathlib.Data.Fintype.Card
import Mathlib.Data.List.FinRange
import GitCore.Pack.Chains

/-!
# The order of a pack

`compute_write_order` and `write_one` of `builtin/pack-objects.c`: the order in which the objects of
`to_pack` are written, layer by layer, and the recursion that writes the base of a delta first.
-/

namespace GitCore.Pack

abbrev objCommit : Nat := 1

abbrev objTree : Nat := 2

abbrev objTag : Nat := 4

structure ToPack (n : Nat) where
  delta : Fin n → Option (Fin n)
  type : Fin n → Nat
  tagged : Fin n → Bool
  layer : Fin n → Nat
  preferredBase : Fin n → Bool

section Order

variable {α : Type} [DecidableEq α]

structure DeltaLinks (α : Type) where
  child : α → Option α
  sibling : α → Option α

def connectDelta (delta : α → Option α) (e : α) (links : DeltaLinks α) : DeltaLinks α :=
  match delta e with
  | none => links
  | some base => ⟨Function.update links.child base (some e), Function.update links.sibling e (links.child base)⟩

def connectDeltas (delta : α → Option α) (objects : List α) : DeltaLinks α :=
  objects.foldr (connectDelta delta) ⟨fun _ => none, fun _ => none⟩

structure WriteOrder (α : Type) where
  wo : List α
  filled : α → Bool

def addToWriteOrder (layer : α → Nat) (writeLayer : Nat) (o : WriteOrder α) (e : α) : WriteOrder α :=
  if o.filled e = true ∨ layer e ≠ writeLayer then o
  else ⟨o.wo ++ [e], Function.update o.filled e true⟩

/-- Where `add_descendants_to_write_order` is. -/
inductive WalkPhase (α : Type)
  | visit (e : α) (addToOrder : Bool)
  | siblings (e : α) (s : Option α)
  | descend (e : α)
  | ascend (e : Option α)

/-- One step of `add_descendants_to_write_order`. -/
def walkStep (delta : α → Option α) (links : DeltaLinks α) (add : WriteOrder α → α → WriteOrder α)
    (w : WalkPhase α × WriteOrder α) : (WalkPhase α × WriteOrder α) ⊕ WriteOrder α :=
  match w.1 with
  | .visit e true => .inl (.siblings e (links.sibling e), add w.2 e)
  | .visit e false => .inl (.descend e, w.2)
  | .siblings e (some s) => .inl (.siblings e (links.sibling s), add w.2 s)
  | .siblings e none => .inl (.descend e, w.2)
  | .descend e =>
    match links.child e with
    | some c => .inl (.visit c true, w.2)
    | none =>
      match links.sibling e with
      | some s => .inl (.visit s false, w.2)
      | none => .inl (.ascend (delta e), w.2)
  | .ascend none => .inr w.2
  | .ascend (some e) =>
    match links.sibling e with
    | some s => .inl (.visit s false, w.2)
    | none => .inl (.ascend (delta e), w.2)

def addDescendantsToWriteOrder (fuel : Nat) (delta : α → Option α) (links : DeltaLinks α)
    (add : WriteOrder α → α → WriteOrder α) (o : WriteOrder α) (e : α) : Option (WriteOrder α) :=
  runFor (walkStep delta links add) fuel (.visit e true, o)

def rootStep (delta : α → Option α) (root : α) : α ⊕ α :=
  match delta root with
  | some base => .inl base
  | none => .inr root

def addFamilyToWriteOrder (fuel : Nat) (delta : α → Option α) (links : DeltaLinks α)
    (add : WriteOrder α → α → WriteOrder α) (o : WriteOrder α) (e : α) : Option (WriteOrder α) :=
  (runFor (rootStep delta) fuel e).bind (addDescendantsToWriteOrder fuel delta links add o)

end Order

section Layers

variable {n : Nat}

/-- The passes of `compute_layer_order` in front of the families. -/
def layerOrderPrefix (p : ToPack n) (writeLayer : Nat) (o : WriteOrder (Fin n)) : WriteOrder (Fin n) :=
  let add := addToWriteOrder p.layer writeLayer
  let rest := (List.finRange n).dropWhile (fun e => !p.tagged e)
  let o := ((List.finRange n).takeWhile fun e => !p.tagged e).foldl add o
  let o := (rest.filter fun e => p.tagged e).foldl add o
  let o := (rest.filter fun e => p.type e = objCommit ∨ p.type e = objTag).foldl add o
  (rest.filter fun e => p.type e = objTree).foldl add o

def computeLayerOrder (fuel : Nat) (p : ToPack n) (o : WriteOrder (Fin n)) (writeLayer : Nat) :
    Option (WriteOrder (Fin n)) :=
  ((List.finRange n).dropWhile fun e => !p.tagged e).foldlM
    (fun o e =>
      if o.filled e = false ∧ p.layer e = writeLayer then
        addFamilyToWriteOrder fuel p.delta (connectDeltas p.delta (List.finRange n))
          (addToWriteOrder p.layer writeLayer) o e
      else some o)
    (layerOrderPrefix p writeLayer o)

def computeWriteOrder (fuel : Nat) (p : ToPack n) (maxLayers : Nat) : Option (Option (List (Fin n))) :=
  ((List.range maxLayers).foldlM (computeLayerOrder fuel p) ⟨[], fun _ => false⟩).map fun o =>
    if o.wo.length = n then some o.wo else none

end Layers

section Write

variable {α : Type} [DecidableEq α]

/-- What the objects look like in a pack: their ids, and the sizes and compressed data to store them
whole or as a delta. -/
structure PackData (α : Type) where
  id : α → List UInt8
  wholeType : α → Nat
  wholeSize : α → Nat
  whole : α → List UInt8
  deltaSize : α → Nat
  deltaData : α → List UInt8

/-- `idx.offset` and the bases of the objects, the file, its `offset` and `written_list`. -/
structure WriteState (α : Type) where
  idxOffset : α → Nat
  delta : α → Option α
  file : List UInt8
  offset : Nat
  writtenList : List α

def WriteState.setOffset (s : WriteState α) (e : α) (offset : Nat) : WriteState α :=
  { s with idxOffset := Function.update s.idxOffset e offset }

def WriteState.dropDelta (s : WriteState α) (e : α) : WriteState α :=
  { s with delta := Function.update s.delta e none }

def writeObject (data : PackData α) (allowOfsDelta : Bool) (delta : α → Option α) (idxOffset : α → Nat) (e : α) :
    List UInt8 :=
  match delta e with
  | none => encodeInPackObjectHeader (data.wholeType e) (data.wholeSize e) ++ data.whole e
  | some base =>
    if allowOfsDelta = true ∧ idxOffset base ≠ 0 then
      encodeInPackObjectHeader objOfsDelta (data.deltaSize e) ++ encodeVarint (idxOffset e - idxOffset base) ++
        data.deltaData e
    else encodeInPackObjectHeader objRefDelta (data.deltaSize e) ++ data.id base ++ data.deltaData e

inductive WriteOneStatus
  | skip
  | bust
  | written
  | recursive
  deriving DecidableEq

def writeOneBody (data : PackData α) (allowOfsDelta : Bool) (s : WriteState α) (e : α) :
    WriteOneStatus × WriteState α :=
  let s := s.setOffset e s.offset
  let bytes := writeObject data allowOfsDelta s.delta s.idxOffset e
  if bytes.length = 0 then (.bust, s.setOffset e 0)
  else
    (.written, { s with
      file := s.file ++ bytes
      offset := s.offset + bytes.length
      writtenList := s.writtenList ++ [e] })

def unwritten [Fintype α] (s : WriteState α) : Nat :=
  (Finset.univ.filter fun e => s.idxOffset e = 0).card

lemma unwritten_lt [Fintype α] {s : WriteState α} {e : α} (h : s.idxOffset e = 0) :
    unwritten (s.setOffset e 1) < unwritten s := by
  refine Finset.card_lt_card ((Finset.ssubset_iff_of_subset fun x hx => ?_).mpr ⟨e, ?_, ?_⟩)
  · rw [Finset.mem_filter] at hx ⊢
    have hne : x ≠ e := by
      rintro rfl
      simp [WriteState.setOffset] at hx
    have heq : (s.setOffset e 1).idxOffset x = s.idxOffset x := Function.update_of_ne hne _ _
    exact ⟨Finset.mem_univ x, heq.symm.trans hx.2⟩
  · exact Finset.mem_filter.mpr ⟨Finset.mem_univ _, h⟩
  · intro hmem
    have hself : (s.setOffset e 1).idxOffset e = 1 := Function.update_self _ _ _
    rw [Finset.mem_filter, hself] at hmem
    exact one_ne_zero hmem.2

def writeOne [Fintype α] (data : PackData α) (allowOfsDelta : Bool) (preferredBase : α → Bool) (s : WriteState α) (e : α) :
    WriteOneStatus × WriteState α :=
  if s.idxOffset e = 1 then (.recursive, s)
  else if _h : s.idxOffset e ≠ 0 ∨ preferredBase e = true then (.skip, s)
  else
    match s.delta e with
    | none => writeOneBody data allowOfsDelta s e
    | some base =>
      -- the mark is left while the base is written
      let r := writeOne data allowOfsDelta preferredBase (s.setOffset e 1) base
      match r.1 with
      | .recursive => writeOneBody data allowOfsDelta (r.2.dropDelta e) e
      | .bust => (.bust, r.2.setOffset e 0)
      | .skip => writeOneBody data allowOfsDelta r.2 e
      | .written => writeOneBody data allowOfsDelta r.2 e
termination_by unwritten s
decreasing_by exact unwritten_lt (not_not.mp (not_or.mp _h).1)

/-- The loop of `write_pack_file` over the write order. -/
def writeAll [Fintype α] (data : PackData α) (allowOfsDelta : Bool) (preferredBase : α → Bool) :
    List α → WriteState α → WriteState α
  | [], s => s
  | e :: order, s =>
    let r := writeOne data allowOfsDelta preferredBase s e
    if r.1 = .bust then r.2 else writeAll data allowOfsDelta preferredBase order r.2

end Write

end GitCore.Pack

/-!
# Every object is ordered and written once

The walk through a family adds everything below its root, so every layer adds all its objects. In
the order that results, `write_one` writes each object behind its base.
-/

namespace GitCore.Pack

section Links

variable {α : Type} [DecidableEq α]

inductive SiblingChain (sibling : α → Option α) : Option α → List α → Prop
  | nil : SiblingChain sibling none []
  | cons {e : α} {l : List α} (h : SiblingChain sibling (sibling e) l) : SiblingChain sibling (some e) (e :: l)

omit [DecidableEq α] in
lemma SiblingChain.congr {sibling sibling' : α → Option α} {s : Option α} {l : List α}
    (h : SiblingChain sibling s l) (hagree : ∀ e ∈ l, sibling' e = sibling e) : SiblingChain sibling' s l := by
  induction h with
  | nil => exact .nil
  | @cons e l _ ih =>
    refine .cons ?_
    rw [hagree e List.mem_cons_self]
    exact ih fun x hx => hagree x (List.mem_cons_of_mem _ hx)

def kids (delta : α → Option α) (objects : List α) (base : α) : List α :=
  objects.filter fun e => delta e = some base

structure Linked (delta : α → Option α) (objects : List α) (links : DeltaLinks α) : Prop where
  chain : ∀ base, SiblingChain links.sibling (links.child base) (kids delta objects base)
  sibling_root : ∀ e, delta e = none → links.sibling e = none

lemma linked_connectDeltas {delta : α → Option α} {objects : List α} (hnodup : objects.Nodup) :
    Linked delta objects (connectDeltas delta objects) := by
  induction objects with
  | nil => exact ⟨fun _ => .nil, fun _ _ => rfl⟩
  | cons e objects ih =>
    obtain ⟨hnotin, hnodup⟩ := List.nodup_cons.mp hnodup
    have hold := ih hnodup
    rw [connectDeltas, List.foldr_cons, ← connectDeltas, connectDelta]
    cases hdelta : delta e with
    | none =>
      refine ⟨fun base => ?_, hold.sibling_root⟩
      rw [kids, List.filter_cons_of_neg (by simp [hdelta]), ← kids]
      exact hold.chain base
    | some b =>
      have hagree : ∀ base, ∀ x ∈ kids delta objects base,
          Function.update (connectDeltas delta objects).sibling e ((connectDeltas delta objects).child b) x =
            (connectDeltas delta objects).sibling x := fun base x hx => by
        have hne : x ≠ e := fun heq => hnotin (by rw [← heq]; exact (List.mem_filter.mp hx).1)
        exact Function.update_of_ne hne _ _
      refine ⟨fun base => ?_, fun x hx => ?_⟩
      · by_cases hb : base = b
        · rw [hb, kids, List.filter_cons_of_pos (by simp [hdelta]), ← kids]
          dsimp only
          rw [Function.update_self]
          refine .cons ?_
          rw [Function.update_self]
          exact (hold.chain b).congr (hagree b)
        · rw [kids, List.filter_cons_of_neg (by simp [hdelta, Ne.symm hb]), ← kids]
          dsimp only
          rw [Function.update_of_ne hb]
          exact (hold.chain base).congr (hagree base)
      · have hne : x ≠ e := fun heq => by
          rw [heq, hdelta] at hx
          cases hx
        exact (Function.update_of_ne hne _ _).trans (hold.sibling_root x hx)

end Links

section Walk

variable {α : Type} [DecidableEq α] {delta : α → Option α} {objects : List α} {links : DeltaLinks α}
  {add : WriteOrder α → α → WriteOrder α}

def leave (delta : α → Option α) (links : DeltaLinks α) (e : α) : WalkPhase α :=
  match links.sibling e with
  | some s => .visit s false
  | none => .ascend (delta e)

omit [DecidableEq α] in
lemma run_siblings {s : Option α} {l : List α} (h : SiblingChain links.sibling s l) (e : α) (o : WriteOrder α) :
    LoopRun (walkStep delta links add) (.siblings e s, o) (.descend e, l.foldl add o) := by
  induction h generalizing o with
  | nil => exact .single rfl
  | cons _ ih => exact .head rfl (ih _)

abbrev Below (delta : α → Option α) : α → α → Prop :=
  Relation.TransGen fun c b => delta c = some b

def WalksBelow (delta : α → Option α) (links : DeltaLinks α) (add : WriteOrder α → α → WriteOrder α) (e : α) : Prop :=
  ∀ o, ∃ offers : List α,
    LoopRun (walkStep delta links add) (.descend e, o) (leave delta links e, offers.foldl add o) ∧
      ∀ x, Below delta x e → x ∈ offers

omit [DecidableEq α] in
lemma run_kids {e c : α} {cs : List α} (hchain : SiblingChain links.sibling (some c) (c :: cs))
    (hdelta : ∀ x ∈ c :: cs, delta x = some e) (hbelow : ∀ x ∈ c :: cs, WalksBelow delta links add x)
    (o : WriteOrder α) :
    ∃ offers : List α,
      LoopRun (walkStep delta links add) (.descend c, o) (.ascend (some e), offers.foldl add o) ∧
        ∀ x ∈ c :: cs, ∀ y, Below delta y x → y ∈ offers := by
  induction cs generalizing c o with
  | nil =>
    obtain ⟨offers, hrun, hoffers⟩ := hbelow c List.mem_cons_self o
    refine ⟨offers, ?_, fun x hx y hy => hoffers y (List.mem_singleton.mp hx ▸ hy)⟩
    cases hchain with
    | cons hrest =>
      have hlast : links.sibling c = none := by
        cases hs : links.sibling c with
        | none => rfl
        | some s =>
          rw [hs] at hrest
          cases hrest
      rw [leave, hlast, hdelta c List.mem_cons_self] at hrun
      exact hrun
  | cons d ds ih =>
    obtain ⟨offers, hrun, hoffers⟩ := hbelow c List.mem_cons_self o
    cases hchain with
    | cons hrest =>
      have hnext : links.sibling c = some d := by
        cases hs : links.sibling c with
        | none =>
          rw [hs] at hrest
          cases hrest
        | some s =>
          rw [hs] at hrest
          cases hrest
          rfl
      rw [hnext] at hrest
      rw [leave, hnext] at hrun
      obtain ⟨offers', hrun', hoffers'⟩ := ih hrest (fun x hx => hdelta x (List.mem_cons_of_mem _ hx))
        (fun x hx => hbelow x (List.mem_cons_of_mem _ hx)) (offers.foldl add o)
      refine ⟨offers ++ offers', ?_, fun x hx y hy => ?_⟩
      · rw [List.foldl_append]
        exact (hrun.tail rfl).trans hrun'
      · rcases List.mem_cons.mp hx with rfl | hx
        · exact List.mem_append_left _ (hoffers y hy)
        · exact List.mem_append_right _ (hoffers' x hx y hy)

lemma walksBelow (hwf : WellFounded fun c b => delta c = some b) (hlinked : Linked delta objects links)
    (hall : ∀ e, e ∈ objects) (e : α) : WalksBelow delta links add e := by
  induction e using hwf.induction with
  | _ e ih =>
    intro o
    have hkids : ∀ c, c ∈ kids delta objects e ↔ delta c = some e := fun c => by simp [kids, hall c]
    have hchain := hlinked.chain e
    cases hlist : kids delta objects e with
    | nil =>
      rw [hlist] at hchain
      have hchild : links.child e = none := by
        cases hc : links.child e with
        | none => rfl
        | some c =>
          rw [hc] at hchain
          cases hchain
      refine ⟨[], .single ?_, fun x hx => ?_⟩
      · simp only [walkStep, hchild, leave, List.foldl_nil]
        cases links.sibling e <;> rfl
      · obtain ⟨c, -, hc⟩ := Relation.TransGen.tail'_iff.mp hx
        rw [← hkids, hlist] at hc
        exact absurd hc List.not_mem_nil
    | cons c cs =>
      rw [hlist] at hchain
      have hchild : links.child e = some c := by
        cases hc : links.child e with
        | none =>
          rw [hc] at hchain
          cases hchain
        | some c' =>
          rw [hc] at hchain
          cases hchain
          rfl
      rw [hchild] at hchain
      have hdelta : ∀ x ∈ c :: cs, delta x = some e := fun x hx => (hkids x).mp (hlist ▸ hx)
      obtain ⟨offers, hrun, hoffers⟩ := @run_kids _ delta links add e c cs hchain hdelta
        (fun x hx => ih x (hdelta x hx)) ((c :: cs).foldl add o)
      refine ⟨c :: cs ++ offers, ?_, fun x hx => ?_⟩
      · have hdown : LoopRun (walkStep delta links add) (.descend e, o) (.visit c true, o) :=
          .single (by simp only [walkStep, hchild])
        have hup : LoopRun (walkStep delta links add) (.ascend (some e), offers.foldl add ((c :: cs).foldl add o))
            (leave delta links e, offers.foldl add ((c :: cs).foldl add o)) := by
          refine .single ?_
          simp only [walkStep, leave]
          cases links.sibling e <;> rfl
        have hadd : LoopRun (walkStep delta links add) (.visit c true, o) (.descend c, (c :: cs).foldl add o) := by
          cases hchain with
          | cons hrest => exact .head rfl (run_siblings hrest c _)
        rw [List.foldl_append]
        exact ((hdown.trans hadd).trans hrun).trans hup
      · rcases Relation.TransGen.tail'_iff.mp hx with ⟨c', hxc, hc'⟩
        have hmem : c' ∈ c :: cs := by
          rw [← hlist]
          exact (hkids c').mpr hc'
        rcases Relation.reflTransGen_iff_eq_or_transGen.mp hxc with rfl | hxc
        · exact List.mem_append_left _ hmem
        · exact List.mem_append_right _ (hoffers c' hmem x hxc)

end Walk

section Layers

variable {α : Type} [DecidableEq α] {layer : α → Nat} {writeLayer : Nat}

structure Ordered (o : WriteOrder α) : Prop where
  nodup : o.wo.Nodup
  filled : ∀ e, o.filled e = true ↔ e ∈ o.wo

lemma Ordered.add {o : WriteOrder α} (h : Ordered o) (e : α) : Ordered (addToWriteOrder layer writeLayer o e) := by
  rw [addToWriteOrder]
  split_ifs with hskip
  · exact h
  · have hnotin : e ∉ o.wo := fun hmem => hskip (.inl ((h.filled e).mpr hmem))
    refine ⟨List.nodup_append.mpr ⟨h.nodup, List.nodup_singleton e, fun a ha b hb heq => ?_⟩, fun x => ?_⟩
    · rw [List.mem_singleton] at hb
      exact hnotin (by rw [← hb, ← heq]; exact ha)
    · rw [List.mem_append, List.mem_singleton]
      by_cases hx : x = e
      · simp [hx]
      · rw [or_iff_left hx, ← h.filled x]
        exact iff_of_eq (congrArg (· = true) (Function.update_of_ne hx _ _))

lemma subset_add (o : WriteOrder α) (e : α) : o.wo ⊆ (addToWriteOrder layer writeLayer o e).wo := by
  rw [addToWriteOrder]
  split_ifs
  · exact List.Subset.refl _
  · exact List.subset_append_left _ _

lemma mem_add {o : WriteOrder α} (h : Ordered o) {e : α} (hlayer : layer e = writeLayer) :
    e ∈ (addToWriteOrder layer writeLayer o e).wo := by
  rw [addToWriteOrder]
  split_ifs with hskip
  · exact (h.filled e).mp (hskip.resolve_right (not_not.mpr hlayer))
  · exact List.mem_append_right _ List.mem_cons_self

lemma foldl_add (l : List α) {o : WriteOrder α} (h : Ordered o) :
    Ordered (l.foldl (addToWriteOrder layer writeLayer) o) ∧
      o.wo ⊆ (l.foldl (addToWriteOrder layer writeLayer) o).wo ∧
      ∀ e ∈ l, layer e = writeLayer → e ∈ (l.foldl (addToWriteOrder layer writeLayer) o).wo := by
  induction l generalizing o with
  | nil => exact ⟨h, List.Subset.refl _, fun e he => absurd he List.not_mem_nil⟩
  | cons a l ih =>
    obtain ⟨hordered, hsubset, hmem⟩ := ih (h.add a)
    rw [List.foldl_cons]
    refine ⟨hordered, List.Subset.trans (subset_add o a) hsubset, fun e he hlayer => ?_⟩
    rcases List.mem_cons.mp he with rfl | he
    · exact hsubset (mem_add h hlayer)
    · exact hmem e he hlayer

variable {delta : α → Option α} {objects : List α} {links : DeltaLinks α}

omit [DecidableEq α] in
lemma exists_root {e : α} {k : Nat} (h : ChainLength delta e k) :
    ∃ root, LoopRun (rootStep delta) e root ∧ delta root = none ∧ (e = root ∨ Below delta e root) := by
  induction h with
  | @base a hbase => exact ⟨a, .refl, hbase, .inl rfl⟩
  | @link a b n hlink _ ih =>
    obtain ⟨root, hrun, hroot, hbelow⟩ := ih
    refine ⟨root, .head ?_ hrun, hroot, .inr ?_⟩
    · rw [rootStep, hlink]
    · rcases hbelow with rfl | hbelow
      · exact .single hlink
      · exact .head hlink hbelow

omit [DecidableEq α] in
lemma wellFounded_below [Finite α] (hacyclic : ∀ e, ∃ k, ChainLength delta e k) :
    WellFounded fun c b => delta c = some b := by
  choose depth hdepth using hacyclic
  obtain ⟨bound, hbound⟩ := (Set.finite_range depth).bddAbove
  refine Subrelation.wf (fun {c b} hlink => ?_) (InvImage.wf (fun e => bound - depth e) Nat.lt_wfRel.wf)
  have hsucc := (hdepth c).unique (.link hlink (hdepth b))
  have hle := hbound (Set.mem_range_self c)
  simp only [InvImage, WellFoundedRelation.rel]
  omega

lemma addFamily_eventually [Finite α] (hacyclic : ∀ e, ∃ k, ChainLength delta e k) (hlinked : Linked delta objects links)
    (hall : ∀ e, e ∈ objects) {o : WriteOrder α} (h : Ordered o) (e : α) :
    ∃ o', (∀ᶠ fuel in Filter.atTop,
        addFamilyToWriteOrder fuel delta links (addToWriteOrder layer writeLayer) o e = some o') ∧
      Ordered o' ∧ o.wo ⊆ o'.wo ∧ (layer e = writeLayer → e ∈ o'.wo) := by
  obtain ⟨k, hk⟩ := hacyclic e
  obtain ⟨root, hup, hroot, hbelow⟩ := exists_root hk
  obtain ⟨offers, hrun, hoffers⟩ := @walksBelow _ _ delta objects links (addToWriteOrder layer writeLayer)
    (wellFounded_below hacyclic) hlinked hall root (addToWriteOrder layer writeLayer o root)
  have hsibling := hlinked.sibling_root root hroot
  have hwalk : LoopRun (walkStep delta links (addToWriteOrder layer writeLayer)) (.visit root true, o)
      (.ascend none, (root :: offers).foldl (addToWriteOrder layer writeLayer) o) := by
    rw [leave, hsibling, hroot] at hrun
    refine .head rfl (.head ?_ hrun)
    rw [hsibling]
    rfl
  obtain ⟨hordered, hsubset, hmem⟩ := @foldl_add _ _ layer writeLayer (root :: offers) o h
  refine ⟨_, ?_, hordered, hsubset, hmem e ?_⟩
  · have hrootFuel := @runFor_eventually _ _ (rootStep delta) e root root hup (by rw [rootStep, hroot])
    have hwalkFuel := @runFor_eventually _ _ (walkStep delta links (addToWriteOrder layer writeLayer)) _ _ _ hwalk rfl
    filter_upwards [hrootFuel, hwalkFuel] with fuel hfuel hfuel'
    rw [addFamilyToWriteOrder, hfuel, Option.bind_some, addDescendantsToWriteOrder, hfuel']
  · rcases hbelow with rfl | hbelow
    · exact List.mem_cons_self
    · exact List.mem_cons_of_mem _ (hoffers e hbelow)

lemma foldlM_families [Finite α] (hacyclic : ∀ e, ∃ k, ChainLength delta e k) (hlinked : Linked delta objects links)
    (hall : ∀ e, e ∈ objects) (l : List α) {o : WriteOrder α} (h : Ordered o) :
    ∃ o', (∀ᶠ fuel in Filter.atTop, l.foldlM
        (fun o e =>
          if o.filled e = false ∧ layer e = writeLayer then
            addFamilyToWriteOrder fuel delta links (addToWriteOrder layer writeLayer) o e
          else some o) o = some o') ∧
      Ordered o' ∧ o.wo ⊆ o'.wo ∧ ∀ e ∈ l, layer e = writeLayer → e ∈ o'.wo := by
  induction l generalizing o with
  | nil => exact ⟨o, .of_forall fun _ => rfl, h, List.Subset.refl _, fun e he => absurd he List.not_mem_nil⟩
  | cons a l ih =>
    by_cases hadd : o.filled a = false ∧ layer a = writeLayer
    · obtain ⟨o₁, hfuel₁, h₁, hsubset₁, hmem₁⟩ := @addFamily_eventually _ _ layer writeLayer _ _ _ _ hacyclic hlinked hall o h a
      obtain ⟨o', hfuel, h', hsubset, hmem⟩ := ih h₁
      refine ⟨o', ?_, h', List.Subset.trans hsubset₁ hsubset, fun e he hlayer => ?_⟩
      · filter_upwards [hfuel₁, hfuel] with fuel hf₁ hf
        rw [List.foldlM_cons, if_pos hadd, hf₁]
        exact hf
      · rcases List.mem_cons.mp he with rfl | he
        · exact hsubset (hmem₁ hlayer)
        · exact hmem e he hlayer
    · obtain ⟨o', hfuel, h', hsubset, hmem⟩ := ih h
      refine ⟨o', ?_, h', hsubset, fun e he hlayer => ?_⟩
      · filter_upwards [hfuel] with fuel hf
        rw [List.foldlM_cons, if_neg hadd]
        exact hf
      · rcases List.mem_cons.mp he with rfl | he
        · have hfilled : o.filled e = true := by
            rw [← Bool.not_eq_false]
            exact fun hfalse => hadd ⟨hfalse, hlayer⟩
          exact hsubset ((h.filled e).mp hfilled)
        · exact hmem e he hlayer

end Layers

section ComputeOrder

variable {n : Nat} {p : ToPack n}

theorem computeLayerOrder_eventually (hacyclic : ∀ e, ∃ k, ChainLength p.delta e k) {o : WriteOrder (Fin n)}
    (h : Ordered o) (writeLayer : Nat) :
    ∃ o', (∀ᶠ fuel in Filter.atTop, computeLayerOrder fuel p o writeLayer = some o') ∧
      Ordered o' ∧ o.wo ⊆ o'.wo ∧ ∀ e, p.layer e = writeLayer → e ∈ o'.wo := by
  have hpass := fun (l : List (Fin n)) {o : WriteOrder (Fin n)} (ho : Ordered o) =>
    @foldl_add _ _ p.layer writeLayer l o ho
  obtain ⟨h₁, hsub₁, hmem₁⟩ := hpass ((List.finRange n).takeWhile fun e => !p.tagged e) h
  obtain ⟨h₂, hsub₂, -⟩ := hpass (((List.finRange n).dropWhile fun e => !p.tagged e).filter fun e => p.tagged e) h₁
  obtain ⟨h₃, hsub₃, -⟩ := hpass
    (((List.finRange n).dropWhile fun e => !p.tagged e).filter fun e => p.type e = objCommit ∨ p.type e = objTag) h₂
  obtain ⟨h₄, hsub₄, -⟩ := hpass
    (((List.finRange n).dropWhile fun e => !p.tagged e).filter fun e => p.type e = objTree) h₃
  have hsubset := List.Subset.trans hsub₂ (List.Subset.trans hsub₃ hsub₄)
  obtain ⟨o', hfuel, h', hsub, hmem⟩ := @foldlM_families _ _ p.layer writeLayer p.delta (List.finRange n)
    (connectDeltas p.delta (List.finRange n)) _ hacyclic (linked_connectDeltas (List.nodup_finRange n))
    (fun e => List.mem_finRange e) ((List.finRange n).dropWhile fun e => !p.tagged e) _ h₄
  refine ⟨o', hfuel, h', List.Subset.trans hsub₁ (List.Subset.trans hsubset hsub), fun e hlayer => ?_⟩
  have he := List.mem_finRange e
  rw [← List.takeWhile_append_dropWhile (p := fun e => !p.tagged e) (l := List.finRange n)] at he
  rcases List.mem_append.mp he with he | he
  · exact hsub (hsubset (hmem₁ e he hlayer))
  · exact hmem e he hlayer

lemma foldlM_layers (hacyclic : ∀ e, ∃ k, ChainLength p.delta e k) (layers : List Nat) {o : WriteOrder (Fin n)}
    (h : Ordered o) :
    ∃ o', (∀ᶠ fuel in Filter.atTop, layers.foldlM (computeLayerOrder fuel p) o = some o') ∧
      Ordered o' ∧ o.wo ⊆ o'.wo ∧ ∀ e, p.layer e ∈ layers → e ∈ o'.wo := by
  induction layers generalizing o with
  | nil => exact ⟨o, .of_forall fun _ => rfl, h, List.Subset.refl _, fun e he => absurd he List.not_mem_nil⟩
  | cons writeLayer layers ih =>
    obtain ⟨o₁, hfuel₁, h₁, hsub₁, hmem₁⟩ := computeLayerOrder_eventually hacyclic h writeLayer
    obtain ⟨o', hfuel, h', hsub, hmem⟩ := ih h₁
    refine ⟨o', ?_, h', List.Subset.trans hsub₁ hsub, fun e he => ?_⟩
    · filter_upwards [hfuel₁, hfuel] with fuel hf₁ hf
      rw [List.foldlM_cons, hf₁]
      exact hf
    · rcases List.mem_cons.mp he with he | he
      · exact hsub (hmem₁ e he)
      · exact hmem e he

theorem computeWriteOrder_eventually (hacyclic : ∀ e, ∃ k, ChainLength p.delta e k) {maxLayers : Nat}
    (hlayer : ∀ e, p.layer e < maxLayers) :
    ∃ wo, (∀ᶠ fuel in Filter.atTop, computeWriteOrder fuel p maxLayers = some (some wo)) ∧
      wo.Perm (List.finRange n) := by
  have hstart : Ordered (⟨[], fun _ => false⟩ : WriteOrder (Fin n)) :=
    ⟨List.nodup_nil, fun e => ⟨fun hfalse => (by cases hfalse), fun hmem => absurd hmem List.not_mem_nil⟩⟩
  obtain ⟨o, hfuel, h, -, hmem⟩ := foldlM_layers hacyclic (List.range maxLayers) hstart
  have hperm : o.wo.Perm (List.finRange n) := (List.perm_ext_iff_of_nodup h.nodup (List.nodup_finRange n)).mpr fun e =>
    ⟨fun _ => List.mem_finRange e, fun _ => hmem e (List.mem_range.mpr (hlayer e))⟩
  refine ⟨o.wo, ?_, hperm⟩
  filter_upwards [hfuel] with fuel hf
  rw [computeWriteOrder, hf, Option.map_some, if_pos (by rw [hperm.length_eq, List.length_finRange])]

end ComputeOrder

end GitCore.Pack
