import GitCore.Lib.SortedMerge
import GitCore.Refs.Iterator

/-!
# What a merge of ref iterators yields

Between two calls a merge stands on the entries that its sub-iterators have not passed. It yields those of the first,
and those of the second that are kept and not shadowed, in order; a seek makes it new.
-/

namespace GitCore.Refs

variable {V : Type} {it : RefIterator V} {view : RefName → Bool → List (IterRef V)} {pending : List (IterRef V)}

/-- The iterator has these entries ahead, and those of `view` after a seek, each in strictly increasing order. -/
structure YieldsRefs (it : RefIterator V) (view : RefName → Bool → List (IterRef V)) (pending : List (IterRef V)) :
    Prop where
  empty : it.isEmpty = true → pending = [] ∧ ∀ refname setPrefix, view refname setPrefix = []
  sought : it.isEmpty = false → ∀ refname setPrefix,
    it.seekTo refname setPrefix = some ((view refname setPrefix).map some)
  rest : it.isEmpty = false → it.rest = pending.map some
  increasing : Increasing IterRef.name pending
  views : ∀ refname setPrefix, Increasing IterRef.name (view refname setPrefix)

lemma YieldsRefs.advance_nil (h : YieldsRefs it view []) : it.advance = (.done, it) := by
  rw [RefIterator.advance]
  split_ifs with hempty
  · rfl
  · rw [h.rest (Bool.eq_false_iff.mpr hempty)]
    rfl

lemma YieldsRefs.advance_cons {ref : IterRef V} (h : YieldsRefs it view (ref :: pending)) :
    it.advance.1 = .ok ∧ it.advance.2.ref = some ref ∧ YieldsRefs it.advance.2 view pending := by
  have hempty : it.isEmpty = false := by
    cases hempty : it.isEmpty with
    | false => rfl
    | true => exact absurd (h.empty hempty).1 (List.cons_ne_nil ref pending)
  have hadvance : it.advance = (.ok, { it with rest := pending.map some, ref := some ref }) := by
    rw [RefIterator.advance, if_neg (Bool.eq_false_iff.mp hempty), h.rest hempty]
    rfl
  rw [hadvance]
  exact ⟨rfl, rfl, fun hyes => absurd hyes (Bool.eq_false_iff.mp hempty), h.sought, fun _ => rfl, h.increasing.tail,
    h.views⟩

lemma YieldsRefs.seek (h : YieldsRefs it view pending) (refname : RefName) (setPrefix : Bool) :
    (it.seek refname setPrefix).1 = true ∧ YieldsRefs (it.seek refname setPrefix).2 view (view refname setPrefix) := by
  rw [RefIterator.seek]
  split_ifs with hempty
  · exact ⟨rfl, fun _ => ⟨(h.empty hempty).2 refname setPrefix, (h.empty hempty).2⟩, h.sought,
      fun hno => absurd hempty (Bool.eq_false_iff.mp hno), h.views refname setPrefix, h.views⟩
  · rw [h.sought (Bool.eq_false_iff.mpr hempty)]
    exact ⟨rfl, fun hyes => absurd hyes hempty, h.sought, fun _ => rfl, h.views refname setPrefix, h.views⟩

def listAnswers (view : RefName → Bool → List (IterRef V)) : List (IterRef V) → List RefIterCall → List (IterAnswer V)
  | _, [] => []
  | [], .advance :: calls => .exhausted :: listAnswers view [] calls
  | ref :: pending, .advance :: calls => .yielded (some ref) :: listAnswers view pending calls
  | _, .seek refname setPrefix :: calls => .sought :: listAnswers view (view refname setPrefix) calls

def Allowed (view : RefName → Bool → List (IterRef V)) : Bool → List (IterRef V) → List RefIterCall → Prop
  | _, _, [] => True
  | true, _, .advance :: _ => False
  | false, [], .advance :: calls => Allowed view true [] calls
  | false, _ :: pending, .advance :: calls => Allowed view false pending calls
  | _, _, .seek refname setPrefix :: calls => Allowed view false (view refname setPrefix) calls

namespace MergeRefIterator

variable {iter : MergeRefIterator V} {views : Slot → RefName → Bool → List (IterRef V)}
  {lists : Slot → List (IterRef V)} {s : Slot} {l : List (IterRef V)}

structure Unread (iter : MergeRefIterator V) (views : Slot → RefName → Bool → List (IterRef V)) (s : Slot)
    (l : List (IterRef V)) : Prop where
  set : iter.isSet s = true
  yields : YieldsRefs (iter.owned s) (views s) l

structure SlotReady (iter : MergeRefIterator V) (views : Slot → RefName → Bool → List (IterRef V)) (s : Slot)
    (l : List (IterRef V)) : Prop where
  set : iter.isSet s = !l.isEmpty
  ref : ∀ ref ∈ l.head?, (iter.owned s).ref = some ref
  yields : YieldsRefs (iter.owned s) (views s) l.tail
  increasing : Increasing IterRef.name l

lemma SlotReady.congr {iter' : MergeRefIterator V} (h : SlotReady iter views s l) (howned : iter'.owned s = iter.owned s)
    (hset : iter'.isSet s = iter.isSet s) : SlotReady iter' views s l where
  set := hset.trans h.set
  ref := by rw [howned]; exact h.ref
  yields := by rw [howned]; exact h.yields
  increasing := h.increasing

lemma SlotReady.unread {ref : IterRef V} (h : SlotReady iter views s (ref :: l)) : Unread iter views s l :=
  ⟨h.set, h.yields⟩

lemma SlotReady.slot_nil (h : SlotReady iter views s []) : iter.slot s = none := by
  rw [slot, h.set]
  rfl

lemma SlotReady.slot_cons {ref : IterRef V} (h : SlotReady iter views s (ref :: l)) :
    iter.slot s = some (iter.owned s) ∧ (iter.owned s).ref = some ref := by
  rw [slot, h.set]
  exact ⟨rfl, h.ref ref rfl⟩

lemma advanceSlot_spec (h : Unread iter views s l) :
    ∃ status iter', iter.advanceSlot s = some (status, iter') ∧ status ≠ .error ∧ SlotReady iter' views s l ∧
      (∀ t ≠ s, iter'.owned t = iter.owned t ∧ iter'.isSet t = iter.isSet t) ∧ iter'.current = iter.current ∧
      iter'.select = iter.select := by
  rw [advanceSlot, if_pos h.set]
  refine ⟨_, _, rfl, ?_, ?_, ?_, rfl, rfl⟩
  · cases l with
    | nil =>
      rw [h.yields.advance_nil]
      simp
    | cons ref l =>
      rw [h.yields.advance_cons.1]
      simp
  · cases l with
    | nil =>
      have hadvance := h.yields.advance_nil
      refine ⟨?_, by simp, ?_, .nil⟩
      · dsimp only
        rw [hadvance, if_neg (by simp), Function.update_self]
        rfl
      · dsimp only
        rw [hadvance, Function.update_self]
        exact h.yields
    | cons ref l =>
      obtain ⟨hok, href, hyields⟩ := h.yields.advance_cons
      refine ⟨?_, ?_, ?_, h.yields.increasing⟩
      · dsimp only
        rw [hok, if_pos rfl, h.set]
        rfl
      · intro other hother
        obtain rfl := Option.some.inj hother
        dsimp only
        rwa [Function.update_self]
      · dsimp only
        rwa [Function.update_self]
  · intro t ht
    dsimp only
    rw [Function.update_of_ne ht]
    refine ⟨rfl, ?_⟩
    split_ifs
    · rfl
    · rw [Function.update_of_ne ht]

def Ready (iter : MergeRefIterator V) (views : Slot → RefName → Bool → List (IterRef V))
    (lists : Slot → List (IterRef V)) : Prop := ∀ s, SlotReady iter views s (lists s)

/-- Nothing was yielded, or the sub-iterator that supplied the last value is to be advanced past it. -/
def Between (iter : MergeRefIterator V) (views : Slot → RefName → Bool → List (IterRef V))
    (lists : Slot → List (IterRef V)) : Prop :=
  (iter.current = none ∧ ∀ s, Unread iter views s (lists s)) ∨
    ∃ s, iter.current = some s ∧ Unread iter views s (lists s) ∧ ∀ t ≠ s, SlotReady iter views t (lists t)

lemma prepare_spec (h : Between iter views lists) :
    ∃ status iter', iter.prepare = some (status, iter') ∧ status ≠ .error ∧ Ready iter' views lists ∧
      iter'.select = iter.select := by
  obtain ⟨hcurrent, hunread⟩ | ⟨s, hcurrent, hunread, hother⟩ := h
  · obtain ⟨status₀, iter₀, hadvance₀, hok₀, hready₀, hframe₀, -, hselect₀⟩ := advanceSlot_spec (hunread .iter0)
    obtain ⟨howned₁, hset₁⟩ := hframe₀ .iter1 (by decide)
    have hunread₁ : Unread iter₀ views .iter1 (lists .iter1) :=
      ⟨hset₁.trans (hunread .iter1).set, by rw [howned₁]; exact (hunread .iter1).yields⟩
    obtain ⟨status, iter', hadvance, hok, hready, hframe, -, hselect⟩ := advanceSlot_spec hunread₁
    refine ⟨status, iter', ?_, hok, fun s => ?_, hselect.trans hselect₀⟩
    · rw [prepare, hcurrent]
      dsimp only
      rw [hadvance₀]
      dsimp only [Option.bind_eq_bind, Option.bind_some]
      rw [if_neg hok₀, hadvance]
    · cases s with
      | iter0 => exact hready₀.congr (hframe .iter0 (by decide)).1 (hframe .iter0 (by decide)).2
      | iter1 => exact hready
  · obtain ⟨status, iter', hadvance, hok, hready, hframe, -, hselect⟩ := advanceSlot_spec hunread
    refine ⟨status, iter', ?_, hok, fun t => ?_, hselect⟩
    · rw [prepare, hcurrent]
      exact hadvance
    · by_cases ht : t = s
      · rw [ht]
        exact hready
      · exact (hother t ht).congr (hframe t ht).1 (hframe t ht).2

/-- The function selects as a merge does that keeps some entries of the second sub-iterator. -/
structure Merges (select : RefIteratorSelectFn V) (keep : IterRef V → Bool) : Prop where
  ended : select none none = some .selectDone
  first : ∀ front, select (some front) none = some .select0
  second : ∀ back ref, back.ref = some ref →
    select none (some back) = some (if keep ref then .select1 else .skip1)
  less : ∀ front back a b, front.ref = some a → back.ref = some b → a.name < b.name →
    select (some front) (some back) = some .select0
  same : ∀ front back a b, front.ref = some a → back.ref = some b → a.name = b.name →
    select (some front) (some back) = some .select0Skip1
  greater : ∀ front back a b, front.ref = some a → back.ref = some b → b.name < a.name →
    select (some front) (some back) = some (if keep b then .select1 else .skip1)

def ahead (keep : IterRef V → Bool) (lists : Slot → List (IterRef V)) : List (IterRef V) :=
  overlay IterRef.name (lists .iter0) ((lists .iter1).filter keep)

variable {keep : IterRef V → Bool} {ref : IterRef V}

lemma obey_yield (h : Ready iter views lists) {selection : IteratorSelection}
    (hyield : selection.yieldCurrent = true) (hskip : selection.skipSecondary = false)
    (hlist : lists selection.current = ref :: l) :
    ∃ iter', iter.obey selection = .inr (some (.ok, iter')) ∧ iter'.ref = some ref ∧
      Between iter' views (Function.update lists selection.current l) ∧ iter'.select = iter.select := by
  have hready := h selection.current
  rw [hlist] at hready
  obtain ⟨hslot, href⟩ := hready.slot_cons
  refine ⟨{ iter with current := some selection.current, ref := some ref }, ?_, rfl,
    .inr ⟨selection.current, rfl, ?_, fun t ht => ?_⟩, rfl⟩
  · rw [obey, skip, if_neg (by simp [hskip])]
    dsimp only
    rw [if_pos hyield]
    have hslot' : ({ iter with current := some selection.current } : MergeRefIterator V).slot selection.current =
        some (iter.owned selection.current) := hslot
    rw [hslot', Option.map_some, href]
  · rw [Function.update_self]
    exact ⟨hready.unread.set, hready.unread.yields⟩
  · rw [Function.update_of_ne ht]
    exact (h t).congr rfl rfl

lemma skip_spec (h : Ready iter views lists) {selection : IteratorSelection} (hskip : selection.skipSecondary = true)
    (hlist : lists selection.current.other = ref :: l) :
    ∃ status iter', iter.skip selection = some (status, iter') ∧ status ≠ .error ∧
      Ready iter' views (Function.update lists selection.current.other l) ∧
      iter'.current = some selection.current ∧ iter'.select = iter.select := by
  have hready := h selection.current.other
  rw [hlist] at hready
  have hunread : Unread { iter with current := some selection.current } views selection.current.other l :=
    ⟨hready.unread.set, hready.unread.yields⟩
  obtain ⟨status, iter', hadvance, hok, hready', hframe, hcurrent, hselect⟩ := advanceSlot_spec hunread
  refine ⟨status, iter', ?_, hok, fun t => ?_, hcurrent, hselect⟩
  · rw [skip, if_pos hskip]
    exact hadvance
  · by_cases ht : t = selection.current.other
    · rw [ht, Function.update_self]
      exact hready'
    · rw [Function.update_of_ne ht]
      exact (h t).congr (hframe t ht).1 (hframe t ht).2

def YieldsNext (iter : MergeRefIterator V) (views : Slot → RefName → Bool → List (IterRef V))
    (keep : IterRef V → Bool) (lists : Slot → List (IterRef V)) (iter' : MergeRefIterator V) : Prop :=
  ∃ ref lists', iter'.ref = some ref ∧ Between iter' views lists' ∧ ahead keep lists = ref :: ahead keep lists' ∧
    iter'.select = iter.select

def RoundDone (iter : MergeRefIterator V) (views : Slot → RefName → Bool → List (IterRef V))
    (keep : IterRef V → Bool) (lists : Slot → List (IterRef V)) :
    MergeRefIterator V ⊕ Option (IterStatus × MergeRefIterator V) → Prop
  | .inr (some (.done, iter')) => iter' = iter ∧ ahead keep lists = []
  | .inr (some (.ok, iter')) => YieldsNext iter views keep lists iter'
  | .inl iter' => ∃ lists', Ready iter' views lists' ∧ ahead keep lists' = ahead keep lists ∧
      iter'.select = iter.select
  | _ => False

lemma ahead_update_first (l : List (IterRef V)) :
    ahead keep (Function.update lists .iter0 l) = overlay IterRef.name l ((lists .iter1).filter keep) := by
  rw [ahead, Function.update_self, Function.update_of_ne (by decide)]

lemma ahead_update_second (l : List (IterRef V)) :
    ahead keep (Function.update lists .iter1 l) = overlay IterRef.name (lists .iter0) (l.filter keep) := by
  rw [ahead, Function.update_self, Function.update_of_ne (by decide)]

lemma overlay_cons_of_forall {back : List (IterRef V)} (h : ∀ b ∈ back, ref.name < b.name) :
    overlay IterRef.name (ref :: l) back = ref :: overlay IterRef.name l back := by
  cases back with
  | nil => simp
  | cons b back => exact overlay_of_lt (h b List.mem_cons_self)

lemma roundDone_second (h : Ready iter views lists) {b : IterRef V} {bs : List (IterRef V)}
    (hsecond : lists .iter1 = b :: bs)
    (hbefore : ∀ a ∈ (lists .iter0).head?, b.name < a.name) :
    RoundDone iter views keep lists (iter.obey (if keep b then .select1 else .skip1)) := by
  by_cases hkeep : keep b = true
  · rw [if_pos hkeep]
    obtain ⟨iter', hobey, href, hbetween, hselect⟩ := @obey_yield _ _ _ _ _ _ h .select1 rfl rfl hsecond
    rw [hobey]
    refine ⟨b, _, href, hbetween, ?_, hselect⟩
    change ahead keep lists = b :: ahead keep (Function.update lists .iter1 bs)
    rw [ahead_update_second, ahead, hsecond, List.filter_cons_of_pos hkeep]
    cases hfirst : lists .iter0 with
    | nil => simp
    | cons a as => exact overlay_of_gt (hbefore a (by rw [hfirst]; rfl))
  · rw [if_neg hkeep]
    obtain ⟨status, iter', hskip, hok, hready, -, hselect⟩ := @skip_spec _ _ _ _ _ _ h .skip1 rfl hsecond
    have hobey : iter.obey .skip1 = .inl iter' := by
      rw [obey, hskip]
      cases status with
      | error => exact absurd rfl hok
      | ok => rfl
      | done => rfl
    rw [hobey]
    refine ⟨_, hready, ?_, hselect⟩
    change ahead keep (Function.update lists .iter1 bs) = ahead keep lists
    rw [ahead_update_second, ahead, hsecond, List.filter_cons_of_neg hkeep]

lemma roundDone_first (h : Ready iter views lists) {a : IterRef V} {as : List (IterRef V)}
    (hfirst : lists .iter0 = a :: as) (hbefore : ∀ b ∈ (lists .iter1).filter keep, a.name < b.name) :
    RoundDone iter views keep lists (iter.obey .select0) := by
  obtain ⟨iter', hobey, href, hbetween, hselect⟩ := @obey_yield _ _ _ _ _ _ h .select0 rfl rfl hfirst
  rw [hobey]
  refine ⟨a, _, href, hbetween, ?_, hselect⟩
  change ahead keep lists = a :: ahead keep (Function.update lists .iter0 as)
  rw [ahead_update_first, ahead, hfirst, overlay_cons_of_forall hbefore]

lemma roundDone_same (h : Ready iter views lists) {a b : IterRef V} {as bs : List (IterRef V)}
    (hfirst : lists .iter0 = a :: as) (hsecond : lists .iter1 = b :: bs) (hname : a.name = b.name) :
    RoundDone iter views keep lists (iter.obey .select0Skip1) := by
  obtain ⟨status, iter₁, hskip, hok, hready, hcurrent, hselect⟩ := @skip_spec _ _ _ _ _ _ h .select0Skip1 rfl hsecond
  have hfirst' : Function.update lists .iter1 bs .iter0 = a :: as := by
    rw [Function.update_of_ne (by decide), hfirst]
  have hhead := hready .iter0
  change SlotReady iter₁ views .iter0 (Function.update lists .iter1 bs .iter0) at hhead
  rw [hfirst'] at hhead
  obtain ⟨hslot, href⟩ := hhead.slot_cons
  have hobey : iter.obey .select0Skip1 = .inr (some (.ok, { iter₁ with ref := some a })) := by
    rw [obey, hskip]
    cases status with
    | error => exact absurd rfl hok
    | ok => exact congrArg Sum.inr ((congrArg _ hslot).trans (by rw [Option.map_some, href]))
    | done => exact congrArg Sum.inr ((congrArg _ hslot).trans (by rw [Option.map_some, href]))
  rw [hobey]
  refine ⟨a, Function.update (Function.update lists .iter1 bs) .iter0 as, rfl,
    .inr ⟨.iter0, hcurrent, ?_, fun t ht => ?_⟩, ?_, hselect⟩
  · rw [Function.update_self]
    exact ⟨hhead.unread.set, hhead.unread.yields⟩
  · rw [Function.update_of_ne ht]
    exact (hready t).congr rfl rfl
  · rw [ahead_update_first, Function.update_self, ahead, hfirst, hsecond]
    by_cases hkeep : keep b = true
    · rw [List.filter_cons_of_pos hkeep, overlay_of_eq hname]
    · rw [List.filter_cons_of_neg hkeep]
      refine overlay_cons_of_forall fun c hc => ?_
      have hsorted := (h .iter1).increasing
      rw [hsecond] at hsorted
      rw [hname]
      exact hsorted.lt (List.mem_of_mem_filter hc)

lemma step_spec (h : Ready iter views lists) (hmerges : Merges iter.select keep) :
    RoundDone iter views keep lists iter.step := by
  have hfirstReady := h .iter0
  have hsecondReady := h .iter1
  cases hfirst : lists .iter0 with
  | nil =>
    rw [hfirst] at hfirstReady
    cases hsecond : lists .iter1 with
    | nil =>
      rw [hsecond] at hsecondReady
      rw [step, hfirstReady.slot_nil, hsecondReady.slot_nil, hmerges.ended]
      exact ⟨rfl, by rw [ahead, hfirst, hsecond]; simp⟩
    | cons b bs =>
      rw [hsecond] at hsecondReady
      obtain ⟨hslot, href⟩ := hsecondReady.slot_cons
      have hround := @roundDone_second _ _ _ _ keep h _ _ hsecond (by rw [hfirst]; simp)
      rw [step, hfirstReady.slot_nil, hslot, hmerges.second _ b href]
      split_ifs at hround ⊢ with hkeep <;> exact hround
  | cons a as =>
    rw [hfirst] at hfirstReady
    obtain ⟨hslot₀, href₀⟩ := hfirstReady.slot_cons
    cases hsecond : lists .iter1 with
    | nil =>
      rw [hsecond] at hsecondReady
      rw [step, hslot₀, hsecondReady.slot_nil, hmerges.first]
      exact roundDone_first h hfirst (by rw [hsecond]; simp)
    | cons b bs =>
      rw [hsecond] at hsecondReady
      obtain ⟨hslot₁, href₁⟩ := hsecondReady.slot_cons
      obtain hlt | heq | hgt := lt_trichotomy a.name b.name
      · rw [step, hslot₀, hslot₁, hmerges.less _ _ a b href₀ href₁ hlt]
        refine roundDone_first h hfirst fun c hc => ?_
        rw [hsecond] at hc
        obtain rfl | hc := List.mem_cons.mp (List.mem_of_mem_filter hc)
        · exact hlt
        · exact hlt.trans (hsecondReady.increasing.lt hc)
      · rw [step, hslot₀, hslot₁, hmerges.same _ _ a b href₀ href₁ heq]
        exact roundDone_same h hfirst hsecond heq
      · have hround := @roundDone_second _ _ _ _ keep h _ _ hsecond (by
          rw [hfirst]
          intro c hc
          rw [← Option.some.inj hc]
          exact hgt)
        rw [step, hslot₀, hslot₁, hmerges.greater _ _ a b href₀ href₁ hgt]
        split_ifs at hround ⊢ with hkeep <;> exact hround

def Seekable (iter : MergeRefIterator V) (views : Slot → RefName → Bool → List (IterRef V)) : Prop :=
  ∀ s, ∃ pending, YieldsRefs (iter.owned s) (views s) pending

lemma Ready.seekable (h : Ready iter views lists) : Seekable iter views := fun s => ⟨_, (h s).yields⟩

lemma Between.seekable (h : Between iter views lists) : Seekable iter views := by
  intro s
  obtain ⟨-, hunread⟩ | ⟨t, -, hunread, hother⟩ := h
  · exact ⟨_, (hunread s).yields⟩
  · by_cases hs : s = t
    · rw [hs]
      exact ⟨_, hunread.yields⟩
    · exact ⟨_, (hother s hs).yields⟩

def Advanced (iter : MergeRefIterator V) (views : Slot → RefName → Bool → List (IterRef V))
    (keep : IterRef V → Bool) (lists : Slot → List (IterRef V)) :
    Option (IterStatus × MergeRefIterator V) → Prop
  | some (.ok, iter') => YieldsNext iter views keep lists iter'
  | some (.done, iter') => ahead keep lists = [] ∧ Seekable iter' views ∧ iter'.select = iter.select
  | _ => False

lemma findNext_spec (h : Ready iter views lists) (hmerges : Merges iter.select keep) :
    Advanced iter views keep lists iter.findNext := by
  -- Every round keeps what is ahead.
  apply loop_inv step size (fun _ _ => size_step)
    (fun i => ∃ lists', Ready i views lists' ∧ ahead keep lists' = ahead keep lists ∧ i.select = iter.select)
    (Advanced iter views keep lists)
  · rintro i i' ⟨lists', hready, hahead, hselect⟩ hstep
    have hround := @step_spec _ _ _ _ keep hready (by rwa [hselect])
    rw [hstep] at hround
    obtain ⟨lists'', hready', hahead', hselect'⟩ := hround
    exact ⟨lists'', hready', hahead'.trans hahead, hselect'.trans hselect⟩
  · rintro i result ⟨lists', hready, hahead, hselect⟩ hstep
    have hround := @step_spec _ _ _ _ keep hready (by rwa [hselect])
    rw [hstep] at hround
    cases result with
    | none => exact hround
    | some result =>
      obtain ⟨status, i'⟩ := result
      cases status with
      | ok =>
        obtain ⟨ref, next, href, hbetween, hnext, hselect'⟩ := hround
        exact ⟨ref, next, href, hbetween, hahead.symm.trans hnext, hselect'.trans hselect⟩
      | done =>
        obtain ⟨rfl, hnil⟩ := hround
        exact ⟨hahead.symm.trans hnil, hready.seekable, hselect⟩
      | error => exact hround
  · exact ⟨lists, h, rfl, rfl⟩

lemma advance_spec (h : Between iter views lists) (hmerges : Merges iter.select keep) :
    Advanced iter views keep lists iter.advance := by
  obtain ⟨status, iter', hprepare, hok, hready, hselect⟩ := prepare_spec h
  have hadvance : iter.advance = iter'.findNext := by
    rw [advance, hprepare]
    exact if_neg hok
  have hfound := @findNext_spec _ _ _ _ keep hready (by rwa [hselect])
  rw [hadvance]
  cases hresult : iter'.findNext with
  | none => rwa [hresult] at hfound
  | some result =>
    obtain ⟨status, i'⟩ := result
    rw [hresult] at hfound
    cases status with
    | ok =>
      obtain ⟨ref, next, href, hbetween, hnext, hselect'⟩ := hfound
      exact ⟨ref, next, href, hbetween, hnext, hselect'.trans hselect⟩
    | done => exact ⟨hfound.1, hfound.2.1, hfound.2.2.trans hselect⟩
    | error => exact hfound

lemma seek_spec (h : Seekable iter views) (refname : RefName) (setPrefix : Bool) :
    (iter.seek refname setPrefix).1 = true ∧
      Between (iter.seek refname setPrefix).2 views (fun s => views s refname setPrefix) ∧
      (iter.seek refname setPrefix).2.select = iter.select := by
  have hsought : ∀ s, ((iter.owned s).seek refname setPrefix).1 = true ∧
      YieldsRefs ((iter.owned s).seek refname setPrefix).2 (views s) (views s refname setPrefix) := fun s => by
    obtain ⟨pending, hyields⟩ := h s
    exact hyields.seek refname setPrefix
  have hsecond : iter.seek refname setPrefix = (({ iter with
      current := none
      isSet := fun _ => true } : MergeRefIterator V).seekSlot .iter0 refname setPrefix).2.seekSlot .iter1 refname
        setPrefix := if_pos (hsought .iter0).1
  have hseek : iter.seek refname setPrefix = (true, { iter with
      current := none
      isSet := fun _ => true
      owned := fun s => ((iter.owned s).seek refname setPrefix).2 }) := by
    have howned : Function.update (Function.update iter.owned .iter0 ((iter.owned .iter0).seek refname setPrefix).2)
        .iter1 ((iter.owned .iter1).seek refname setPrefix).2 =
        fun s => ((iter.owned s).seek refname setPrefix).2 := by
      funext s
      cases s with
      | iter0 => rw [Function.update_of_ne (by decide), Function.update_self]
      | iter1 => rw [Function.update_self]
    rw [hsecond]
    dsimp only [seekSlot]
    rw [Function.update_of_ne (by decide), howned, (hsought .iter1).1]
  rw [hseek]
  exact ⟨rfl, .inl ⟨rfl, fun s => ⟨rfl, (hsought s).2⟩⟩, rfl⟩

def Stands (iter : MergeRefIterator V) (views : Slot → RefName → Bool → List (IterRef V))
    (keep : IterRef V → Bool) : Bool → List (IterRef V) → Prop
  | true, pending => pending = [] ∧ Seekable iter views
  | false, pending => ∃ lists, Between iter views lists ∧ pending = ahead keep lists

lemma Stands.seekable {spent : Bool} {pending : List (IterRef V)} (h : Stands iter views keep spent pending) :
    Seekable iter views := by
  cases spent with
  | false =>
    obtain ⟨lists, hbetween, -⟩ := h
    exact hbetween.seekable
  | true => exact h.2

theorem run_spec (hmerges : Merges iter.select keep) {calls : List RefIterCall} {spent : Bool}
    {pending : List (IterRef V)} (h : Stands iter views keep spent pending)
    (hallowed : Allowed (fun refname setPrefix => ahead keep fun s => views s refname setPrefix) spent pending calls) :
    runRefIterCalls (.merge iter) calls =
      some (listAnswers (fun refname setPrefix => ahead keep fun s => views s refname setPrefix) pending calls) := by
  induction calls generalizing iter spent pending with
  | nil =>
    rw [runRefIterCalls]
    cases pending <;> rfl
  | cons call calls ih =>
    cases call with
    | advance =>
      cases spent with
      | true => exact absurd hallowed (by cases pending <;> exact id)
      | false =>
        obtain ⟨lists, hbetween, rfl⟩ := h
        have hadvanced := advance_spec hbetween hmerges
        rw [runRefIterCalls, OverlayRefIterator.advance]
        cases hresult : iter.advance with
        | none =>
          rw [hresult] at hadvanced
          exact hadvanced.elim
        | some result =>
          obtain ⟨status, iter'⟩ := result
          rw [hresult] at hadvanced
          cases status with
          | ok =>
            obtain ⟨ref, next, href, hbetween', hnext, hselect⟩ := hadvanced
            rw [hnext] at hallowed ⊢
            have hstands : Stands iter' views keep false (ahead keep next) := ⟨next, hbetween', rfl⟩
            have hrun := ih (by rwa [hselect]) hstands hallowed
            dsimp only [Option.map_some, Option.bind_eq_bind, Option.bind_some]
            rw [hrun, Option.bind_some, OverlayRefIterator.ref, href]
            rfl
          | done =>
            obtain ⟨hnil, hseekable, hselect⟩ := hadvanced
            rw [hnil] at hallowed ⊢
            have hstands : Stands iter' views keep true [] := ⟨rfl, hseekable⟩
            have hrun := ih (by rwa [hselect]) hstands hallowed
            dsimp only [Option.map_some, Option.bind_eq_bind, Option.bind_some]
            rw [hrun, Option.bind_some]
            rfl
          | error => exact hadvanced.elim
    | seek refname setPrefix =>
      obtain ⟨hok, hbetween, hselect⟩ := seek_spec h.seekable refname setPrefix
      have hallowed' : Allowed (fun refname setPrefix => ahead keep fun s => views s refname setPrefix) false
          (ahead keep fun s => views s refname setPrefix) calls := by
        cases spent <;> cases pending <;> exact hallowed
      have hstands : Stands (iter.seek refname setPrefix).2 views keep false
          (ahead keep fun s => views s refname setPrefix) := ⟨_, hbetween, rfl⟩
      have hrun : runRefIterCalls ((OverlayRefIterator.merge iter).seek refname setPrefix).2 calls = _ :=
        ih (by rwa [hselect]) hstands hallowed'
      have hok' : ((OverlayRefIterator.merge iter).seek refname setPrefix).1 = true := hok
      rw [runRefIterCalls]
      dsimp only [Option.bind_eq_bind]
      rw [hrun, Option.bind_some, if_pos hok']
      cases pending <;> rfl

lemma stands_begin {iter0 iter1 : RefIterator V} {select : RefIteratorSelectFn V}
    (h₀ : YieldsRefs iter0 (views .iter0) (lists .iter0)) (h₁ : YieldsRefs iter1 (views .iter1) (lists .iter1)) :
    Stands (mergeRefIteratorBegin iter0 iter1 select) views keep false (ahead keep lists) := by
  refine ⟨lists, .inl ⟨rfl, fun s => ⟨rfl, ?_⟩⟩, rfl⟩
  cases s with
  | iter0 => exact h₀
  | iter1 => exact h₁

end MergeRefIterator

lemma run_plain (h : YieldsRefs it view pending) (calls : List RefIterCall) :
    runRefIterCalls (.plain it) calls = some (listAnswers view pending calls) := by
  induction calls generalizing it pending with
  | nil =>
    rw [runRefIterCalls]
    cases pending <;> rfl
  | cons call calls ih =>
    cases call with
    | advance =>
      rw [runRefIterCalls, OverlayRefIterator.advance]
      dsimp only [Option.bind_eq_bind, Option.bind_some]
      cases pending with
      | nil =>
        rw [h.advance_nil]
        dsimp only
        rw [ih h, Option.bind_some]
        rfl
      | cons ref pending =>
        obtain ⟨hok, href, hyields⟩ := h.advance_cons
        rw [ih hyields, Option.bind_some, hok, OverlayRefIterator.ref, href]
        rfl
    | seek refname setPrefix =>
      obtain ⟨hok, hyields⟩ := h.seek refname setPrefix
      have hrun : runRefIterCalls ((OverlayRefIterator.plain it).seek refname setPrefix).2 calls = _ := ih hyields
      have hok' : ((OverlayRefIterator.plain it).seek refname setPrefix).1 = true := hok
      rw [runRefIterCalls]
      dsimp only [Option.bind_eq_bind]
      rw [hrun, Option.bind_some, if_pos hok']
      cases pending <;> rfl

lemma merges_overlayIteratorSelect : MergeRefIterator.Merges (overlayIteratorSelect (V := V)) fun _ => true where
  ended := rfl
  first := fun _ => rfl
  second := fun _ _ _ => rfl
  less := fun front back a b hfront hback hlt => by
    simp only [overlayIteratorSelect, hfront, hback, Option.bind_eq_bind, Option.bind_some, if_pos hlt]
    rfl
  same := fun front back a b hfront hback heq => by
    simp only [overlayIteratorSelect, hfront, hback, Option.bind_eq_bind, Option.bind_some, heq, lt_irrefl, if_false]
    rfl
  greater := fun front back a b hfront hback hgt => by
    simp only [overlayIteratorSelect, hfront, hback, Option.bind_eq_bind, Option.bind_some, if_neg hgt.not_gt,
      if_pos hgt]
    rfl

lemma merges_refIteratorSelect :
    MergeRefIterator.Merges (refIteratorSelect (V := V)) fun ref => isShared ref.name where
  ended := rfl
  first := fun _ => rfl
  second := fun back ref hback => by
    simp only [refIteratorSelect, hback, Option.bind_eq_bind, Option.bind_some]
    rfl
  less := fun front back a b hfront hback hlt => by
    simp only [refIteratorSelect, hfront, hback, Option.bind_eq_bind, Option.bind_some, if_pos hlt]
    rfl
  same := fun front back a b hfront hback heq => by
    simp only [refIteratorSelect, hfront, hback, Option.bind_eq_bind, Option.bind_some, heq, lt_irrefl, if_false,
      if_true]
    rfl
  greater := fun front back a b hfront hback hgt => by
    simp only [refIteratorSelect, hfront, hback, Option.bind_eq_bind, Option.bind_some, if_neg hgt.not_gt,
      if_neg hgt.ne']
    rfl

/-- The refs in order: those of `front`, and those of `back` that are kept and that no ref of `front` shadows. -/
structure Overlays (keep : IterRef V → Bool) (front back pending : List (IterRef V)) : Prop where
  increasing : Increasing IterRef.name pending
  mem : ∀ ref, ref ∈ pending ↔ ref ∈ front ∨ (ref ∈ back ∧ keep ref = true ∧ ∀ a ∈ front, a.name ≠ ref.name)

lemma overlays_overlay {front back : List (IterRef V)} (keep : IterRef V → Bool)
    (hfront : Increasing IterRef.name front) (hback : Increasing IterRef.name back) :
    Overlays keep front back (overlay IterRef.name front (back.filter keep)) where
  increasing := increasing_overlay hfront (hback.filter keep)
  mem := fun ref => by
    rw [mem_overlay hfront (hback.filter keep), List.mem_filter, and_assoc]

/-- The iterator answers every allowed sequence of calls with the refs that two iterators have, overlaid. -/
def AnswersOverlaid (iter : OverlayRefIterator V) (keep : IterRef V → Bool)
    (viewFront viewBack : RefName → Bool → List (IterRef V)) (front back : List (IterRef V)) : Prop :=
  ∃ view pending, Overlays keep front back pending ∧
    (∀ refname setPrefix, Overlays keep (viewFront refname setPrefix) (viewBack refname setPrefix)
      (view refname setPrefix)) ∧
    ∀ calls, Allowed view false pending calls → runRefIterCalls iter calls = some (listAnswers view pending calls)

section

variable {front back : RefIterator V} {viewFront viewBack : RefName → Bool → List (IterRef V)}
  {frontRefs backRefs : List (IterRef V)}

def bySlot {α : Type} (first second : α) : Slot → α
  | .iter0 => first
  | .iter1 => second

lemma answersOverlaid_merge {select : RefIteratorSelectFn V} {keep : IterRef V → Bool}
    (hfront : YieldsRefs front viewFront frontRefs) (hback : YieldsRefs back viewBack backRefs)
    (hmerges : MergeRefIterator.Merges select keep) :
    AnswersOverlaid (.merge (mergeRefIteratorBegin front back select)) keep viewFront viewBack frontRefs backRefs := by
  let views : Slot → RefName → Bool → List (IterRef V) := bySlot viewFront viewBack
  let lists : Slot → List (IterRef V) := bySlot frontRefs backRefs
  refine ⟨fun refname setPrefix => MergeRefIterator.ahead keep fun s => views s refname setPrefix,
    MergeRefIterator.ahead keep lists, overlays_overlay keep hfront.increasing hback.increasing,
    fun refname setPrefix => overlays_overlay keep (hfront.views refname setPrefix) (hback.views refname setPrefix),
    fun calls hallowed => ?_⟩
  have hstands := @MergeRefIterator.stands_begin _ views lists keep _ _ select hfront hback
  exact MergeRefIterator.run_spec hmerges hstands hallowed

lemma answersOverlaid_plain_back (hfront : YieldsRefs front viewFront frontRefs) (hback : YieldsRefs back viewBack backRefs)
    (hempty : front.isEmpty = true) :
    AnswersOverlaid (.plain back) (fun _ => true) viewFront viewBack frontRefs backRefs := by
  obtain ⟨hnil, hviews⟩ := hfront.empty hempty
  refine ⟨viewBack, backRefs, ⟨hback.increasing, fun ref => ?_⟩,
    fun refname setPrefix => ⟨hback.views refname setPrefix, fun ref => ?_⟩, fun calls _ => run_plain hback calls⟩
  · rw [hnil]
    simp
  · rw [hviews]
    simp

lemma answersOverlaid_plain_front (hfront : YieldsRefs front viewFront frontRefs) (hback : YieldsRefs back viewBack backRefs)
    (hempty : back.isEmpty = true) :
    AnswersOverlaid (.plain front) (fun _ => true) viewFront viewBack frontRefs backRefs := by
  obtain ⟨hnil, hviews⟩ := hback.empty hempty
  refine ⟨viewFront, frontRefs, ⟨hfront.increasing, fun ref => ?_⟩,
    fun refname setPrefix => ⟨hfront.views refname setPrefix, fun ref => ?_⟩, fun calls _ => run_plain hfront calls⟩
  · rw [hnil]
    simp
  · rw [hviews]
    simp

/-- An overlay yields the union of the refs with the values of the front iterator, and a worktree's iterator its own
refs and the shared ones, whatever was read or sought before. -/
theorem refIterators_overlay (hfront : YieldsRefs front viewFront frontRefs) (hback : YieldsRefs back viewBack backRefs) :
    AnswersOverlaid (overlayRefIteratorBegin front back) (fun _ => true) viewFront viewBack frontRefs backRefs ∧
      AnswersOverlaid (.merge (mergeRefIteratorBegin front back refIteratorSelect)) (fun ref => isShared ref.name)
        viewFront viewBack frontRefs backRefs := by
  refine ⟨?_, answersOverlaid_merge hfront hback merges_refIteratorSelect⟩
  rw [overlayRefIteratorBegin]
  split_ifs with hemptyFront hemptyBack
  · exact answersOverlaid_plain_back hfront hback hemptyFront
  · exact answersOverlaid_plain_front hfront hback hemptyBack
  · exact answersOverlaid_merge hfront hback merges_overlayIteratorSelect

end

def listIterator (refs : List (IterRef V)) : RefIterator V where
  isEmpty := false
  seekTo := fun refname _ => some ((refs.filter fun ref => refname ≤ ref.name).map some)
  rest := refs.map some
  ref := none

lemma yields_listIterator {refs : List (IterRef V)} (h : Increasing IterRef.name refs) :
    YieldsRefs (listIterator refs) (fun refname _ => refs.filter fun ref => refname ≤ ref.name) refs where
  empty := fun hempty => absurd hempty Bool.false_ne_true
  sought := fun _ _ _ => rfl
  rest := fun _ => rfl
  increasing := h
  views := fun _ _ => h.filter _

theorem refIterators_overlay_letters :
    AnswersOverlaid
        (overlayRefIteratorBegin (listIterator [⟨text "a", 1⟩, ⟨text "b", 2⟩])
          (listIterator [⟨text "b", 3⟩, ⟨text "refs/c", 4⟩])) (fun _ => true)
        (fun refname _ => [(⟨text "a", 1⟩ : IterRef Nat), ⟨text "b", 2⟩].filter fun ref => refname ≤ ref.name)
        (fun refname _ => [(⟨text "b", 3⟩ : IterRef Nat), ⟨text "refs/c", 4⟩].filter fun ref => refname ≤ ref.name)
        [⟨text "a", 1⟩, ⟨text "b", 2⟩] [⟨text "b", 3⟩, ⟨text "refs/c", 4⟩] := by
  refine (refIterators_overlay (yields_listIterator ?_) (yields_listIterator ?_)).1
  · simp only [Increasing, List.pairwise_cons, List.mem_singleton, forall_eq, List.not_mem_nil, false_implies,
      implies_true, List.Pairwise.nil, and_true]
    decide
  · simp only [Increasing, List.pairwise_cons, List.mem_singleton, forall_eq, List.not_mem_nil, false_implies,
      implies_true, List.Pairwise.nil, and_true]
    decide

end GitCore.Refs
