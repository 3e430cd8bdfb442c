import BareImports.Proofs.Build.Turn
import BareImports.Proofs.Cdn.Rounds
import BareImports.Proofs.Merge.Balance
import Mathlib.Algebra.GroupWithZero.Nat
import Mathlib.Algebra.Order.BigOperators.Group.List
import Mathlib.Algebra.Order.Group.Nat
import Mathlib.Data.List.Induction

/-!
# What holds of a build under way

* `Run.play r ms`, `Run.taken r ms` : what moves do in order, and what the consumer takes in them;
* `Run.total F r` : a sum over the producers; `Turns.total` : what a turn makes of it;
* `Stands c p` : every call of a producer stands somewhere that its location accounts for;
* `Run.Sound r` : the cache is sound, its calls stand, the stream counts the producers that may still add to it, and as
  long as the manifest of the project is not known, the outputs that tell it are still to come;
* `Sound.play` : it holds after any moves in any order.
-/

namespace BareImports.Build

open Text Cdn

/-! ## Where calls stand -/

/-- The call of a stage stands somewhere that its location accounts for. -/
def Stage.Stands (c : Cache) : Stage → Prop
  | .entry l w => c.Expects { l with path := Manifest.fileName } w
  | .canonical w => ∃ l, c.Expects l w
  | .content l w _ => c.Expects l w
  | .range _ | .done _ => True

/-- The call for a manifest stands somewhere that a location accounts for. -/
def ManifestSource.Stands (c : Cache) : ManifestSource → Prop
  | .loading w => ∃ l, c.Expects l w
  | .project | .known _ => True

/-- The calls of a producer stand somewhere that their locations account for. -/
def Producer.Stands (c : Cache) : Producer → Prop
  | .fetching l w => c.Expects l w
  | .script _ m => m.Stands c
  | .rewriting w m => m.Stands c ∧ ∀ o ∈ w.left, o.stage.Stands c
  | .source _ _ | .dependency _ | .ended => True

section Stands

variable {c c' : Cache}

theorem Stage.Stands.mono {st : Stage} (h : st.Stands c) (he : c.Extends c') : st.Stands c' := by
  cases st with
  | entry l w => exact Cache.Expects.mono h he
  | canonical w =>
    obtain ⟨l, hl⟩ := h
    exact ⟨l, hl.mono he⟩
  | content l w t => exact Cache.Expects.mono h he
  | range l => exact trivial
  | done x => exact trivial

theorem ManifestSource.Stands.mono {m : ManifestSource} (h : m.Stands c) (he : c.Extends c') : m.Stands c' := by
  cases m with
  | loading w =>
    obtain ⟨l, hl⟩ := h
    exact ⟨l, hl.mono he⟩
  | project => exact trivial
  | known m => exact trivial

theorem Producer.Stands.mono {p : Producer} (h : p.Stands c) (he : c.Extends c') : p.Stands c' := by
  cases p with
  | fetching l w => exact Cache.Expects.mono h he
  | script f m => exact ManifestSource.Stands.mono h he
  | rewriting w m => exact ⟨h.1.mono he, fun o ho => (h.2 o ho).mono he⟩
  | source items fails => exact trivial
  | dependency l => exact trivial
  | ended => exact trivial

theorem stands_withPath (referrer : String) (l : Location) : (Stage.withPath referrer l).Stands c := by
  unfold Stage.withPath
  split
  · exact ⟨l, .turn⟩
  · exact Cache.Expects.turn

theorem stands_withVersion (referrer : String) (l : Location) : (Stage.withVersion referrer l).Stands c := by
  unfold Stage.withVersion
  split
  · exact Cache.Expects.turn
  · exact stands_withPath referrer l

theorem stands_ofBare (referrer specifier : String) (ranged : Bool) : (Stage.ofBare referrer specifier ranged).Stands c := by
  unfold Stage.ofBare
  split
  · exact trivial
  · split
    · exact stands_withVersion referrer _
    · split
      · exact trivial
      · exact stands_withVersion referrer _

theorem stands_ofRelative (referrer specifier : String) : (Stage.ofRelative referrer specifier).Stands c := by
  unfold Stage.ofRelative
  split
  · exact trivial
  · dsimp only
    split
    · exact stands_ofBare referrer _ false
    · split
      · exact trivial
      · exact Cache.Expects.turn

theorem stands_ofSpecifier (map : ImportMap) (referrer specifier : String) :
    (Stage.ofSpecifier map referrer specifier).Stands c := by
  unfold Stage.ofSpecifier
  split
  · exact trivial
  · split
    · exact trivial
    · exact stands_ofBare referrer specifier true
  · split
    · exact stands_ofRelative referrer specifier
    · exact trivial

/-- A sound cache has become another one. -/
structure Kept (c c' : Cache) : Prop where
  /-- The cache stays sound. -/
  sound : c'.Sound
  /-- It goes on to know what it knows. -/
  grows : c.Extends c'

theorem Kept.refl (h : c.Sound) : Kept c c := ⟨h, .refl c⟩

theorem kept_resume (h : c.Sound) {l : Location} {g : Goal} {w : Wait} (hw : c.Expects l w)
    {st : Status g} (hr : c.resume g w = (c', st)) : Kept c c' ∧ c'.Stands l st := by
  have hg := Cache.resume_goes (g := g) h hw
  rw [hr] at hg
  exact ⟨⟨hg.sound h, hg.extends⟩, hg.stands⟩

theorem Stage.Stands.step {st st' : Stage} (h : st.Stands c) (hc : c.Sound) {referrer : String}
    {known : Option (Option Value)} {found : Option Location} (hs : st.step referrer known c = (c', st', found)) :
    Kept c c' ∧ st'.Stands c' := by
  cases st with
  | range l =>
    unfold Stage.step at hs
    dsimp only at hs
    split at hs
    · obtain ⟨rfl, rfl, -⟩ := by simpa using hs
      exact ⟨.refl hc, trivial⟩
    · obtain ⟨rfl, rfl, -⟩ := by simpa using hs
      exact ⟨.refl hc, stands_withVersion referrer _⟩
  | entry l w =>
    unfold Stage.step at hs
    dsimp only at hs
    split at hs
    · next hr =>
      obtain ⟨rfl, rfl, -⟩ := by simpa using hs
      exact kept_resume hc h hr
    · next hr =>
      obtain ⟨rfl, rfl, -⟩ := by simpa using hs
      exact ⟨(kept_resume hc h hr).1, stands_withPath referrer _⟩
    · next hr =>
      obtain ⟨rfl, rfl, -⟩ := by simpa using hs
      exact ⟨(kept_resume hc h hr).1, trivial⟩
  | canonical w =>
    obtain ⟨l, hl⟩ := h
    unfold Stage.step at hs
    dsimp only at hs
    split at hs
    · next hr =>
      obtain ⟨rfl, rfl, -⟩ := by simpa using hs
      exact ⟨(kept_resume hc hl hr).1, l, (kept_resume hc hl hr).2⟩
    · next hr =>
      obtain ⟨rfl, rfl, -⟩ := by simpa using hs
      exact ⟨(kept_resume hc hl hr).1, Cache.Expects.turn⟩
    · next hr =>
      obtain ⟨rfl, rfl, -⟩ := by simpa using hs
      exact ⟨(kept_resume hc hl hr).1, trivial⟩
  | content l w t =>
    unfold Stage.step at hs
    dsimp only at hs
    split at hs
    · next hr =>
      obtain ⟨rfl, rfl, -⟩ := by simpa using hs
      exact kept_resume hc h hr
    · next hr =>
      obtain ⟨rfl, rfl, -⟩ := by simpa using hs
      exact ⟨(kept_resume hc h hr).1, trivial⟩
    · next hr =>
      obtain ⟨rfl, rfl, -⟩ := by simpa using hs
      exact ⟨(kept_resume hc h hr).1, trivial⟩
  | done x =>
    obtain ⟨rfl, rfl, -⟩ := by simpa [Stage.step] using hs
    exact ⟨.refl hc, trivial⟩

theorem ManifestSource.Stands.load {m m' : ManifestSource} (h : m.Stands c) (hc : c.Sound) {needed : Bool}
    (hm : Run.load c needed m = (c', m')) : Kept c c' ∧ m'.Stands c' := by
  cases m with
  | loading w =>
    obtain ⟨l, hl⟩ := h
    unfold Run.load at hm
    dsimp only at hm
    split at hm
    · split at hm
      · next hr =>
        obtain ⟨rfl, rfl⟩ := Prod.mk.inj hm
        exact ⟨(kept_resume hc hl hr).1, l, (kept_resume hc hl hr).2⟩
      · next hr =>
        obtain ⟨rfl, rfl⟩ := Prod.mk.inj hm
        exact ⟨(kept_resume hc hl hr).1, trivial⟩
    · obtain ⟨rfl, rfl⟩ := Prod.mk.inj hm
      exact ⟨.refl hc, l, hl⟩
  | project =>
    obtain ⟨rfl, rfl⟩ := Prod.mk.inj hm
    exact ⟨.refl hc, trivial⟩
  | known m =>
    obtain ⟨rfl, rfl⟩ := Prod.mk.inj hm
    exact ⟨.refl hc, trivial⟩

end Stands

/-! ## Producers behind a turn -/

namespace Run

/-- A sum over the producers. -/
def total (F : Producer → Nat) (r : Run) : Nat := (r.producers.map F).sum

theorem le_sum (F : Producer → Nat) {r : Run} {p : Producer} (hp : p ∈ r.producers) : F p ≤ r.total F :=
  List.le_sum_of_mem (List.mem_map_of_mem hp)

/-- How many producers may still add to the stream. -/
def live (r : Run) : Nat := r.total fun p => p.isLive.toNat

section Turns

variable {r r' : Run} {i : Nat} {t : Turn}

theorem Turns.total (h : r.Turns i t r') (F : Producer → Nat) :
    r'.total F + F t.before = r.total F + (F t.after + t.child.elim 0 F) := by
  have hset := sum_map_set F t.after h.before
  have hchild : (t.child.toList.map F).sum = t.child.elim 0 F := by cases t.child <;> simp
  unfold Run.total
  rw [h.producers, List.map_append, List.sum_append, hchild]
  omega

theorem Turns.mem_cases (h : r.Turns i t r') {p : Producer} (hp : p ∈ r'.producers) :
    p ∈ r.producers ∨ p = t.after ∨ t.child = some p := by
  rw [h.producers, List.mem_append, Option.mem_toList] at hp
  rcases hp with hp | hp
  · exact (List.mem_or_eq_of_mem_set hp).imp_right Or.inl
  · exact Or.inr (Or.inr hp)

theorem Turns.mem_before (h : r.Turns i t r') : t.before ∈ r.producers := List.mem_of_getElem? h.before

theorem Turns.lt (h : r.Turns i t r') : i < r.producers.length := (List.getElem?_eq_some_iff.1 h.before).1

/-- The producers behind a turn. -/
theorem Turns.getElem? (h : r.Turns i t r') (j : Nat) : r'.producers[j]? =
    if j = i then some t.after else if j = r.producers.length then t.child else r.producers[j]? := by
  rw [h.producers]
  have hi := h.lt
  by_cases hj : j < r.producers.length
  · rw [List.getElem?_append_left (by simpa using hj), List.getElem?_set]
    by_cases hji : j = i
    · rw [if_pos hji.symm, if_pos hji, if_pos (by omega)]
    · rw [if_neg (Ne.symm hji), if_neg hji, if_neg (by omega)]
  · rw [List.getElem?_append_right (by simpa using hj), if_neg (by omega), List.length_set]
    by_cases hjn : j = r.producers.length
    · rw [if_pos hjn, hjn, Nat.sub_self]
      cases t.child <;> rfl
    · have hone : t.child.toList.length ≤ 1 := by cases t.child <;> simp
      have hout : r.producers[j]? = none := List.getElem?_eq_none (by omega)
      rw [if_neg hjn, hout]
      exact List.getElem?_eq_none (by omega)

theorem Turns.mem_of_ne (h : r.Turns i t r') {p : Producer} (hp : p ∈ r.producers) :
    p = t.before ∨ p ∈ r'.producers := by
  obtain ⟨j, hj⟩ := List.mem_iff_getElem?.1 hp
  have hlt := (List.getElem?_eq_some_iff.1 hj).1
  by_cases hji : j = i
  · rw [hji, h.before] at hj
    exact Or.inl (Option.some.inj hj).symm
  · refine Or.inr (List.mem_of_getElem? (i := j) ?_)
    rw [h.getElem?, if_neg hji, if_neg (by omega), hj]

theorem Turns.mem_after (h : r.Turns i t r') : t.after ∈ r'.producers :=
  List.mem_of_getElem? (i := i) (by rw [h.getElem?, if_pos rfl])

theorem Acts.isLive (h : r.Acts t) : t.before.isLive = true := by
  cases h <;> rfl

theorem Acts.isLive_child (h : r.Acts t) : ∀ p, t.child = some p → p.isLive = true := by
  intro p hp
  cases h with
  | read hs =>
    obtain rfl := Option.some.inj hp
    rfl
  | resolve hk hm hs =>
    obtain ⟨l, -, rfl⟩ := Option.map_eq_some_iff.1 hp
    rfl
  | _ => exact absurd hp (by simp)

theorem Turns.live (h : r.Turns i t r') : r'.live + 1 = r.live + (t.after.isLive.toNat + t.child.toList.length) := by
  have htotal := h.total fun p => p.isLive.toNat
  have hchild : (t.child.elim 0 fun p => p.isLive.toNat) = t.child.toList.length := by
    have hlive := h.acts.isLive_child
    rcases hc : t.child with _ | p
    · rfl
    · simp [hlive p hc]
  rw [hchild, h.acts.isLive] at htotal
  exact htotal

end Turns

/-! ## The stream -/

theorem add_iterate {m : Merge Output} {n : Nat} (h : m.Balanced n) (child : Option Producer) :
    Merge.Balanced (n + child.toList.length) (child.elim m fun _ => m.add) := by
  cases child with
  | none => exact h
  | some p => exact h.add

theorem balanced_foldl_put {m : Merge Output} {n : Nat} (h : m.Balanced n) (hn : n ≠ 0) (items : List Output) :
    Merge.Balanced n (items.foldl Merge.put m) := by
  induction items generalizing m with
  | nil => exact h
  | cons o items ih => exact ih (h.put hn o)

/-- The stream behind a turn. -/
theorem Turns.merge {r r' : Run} {i : Nat} {t : Turn} (h : r.Turns i t r') : r'.merge =
    if t.after.isLive then t.items.foldl Merge.put (t.child.elim r.merge fun _ => r.merge.add)
    else (t.items.foldl Merge.put (t.child.elim r.merge fun _ => r.merge.add)).close := by
  have hq : (t.child.elim r.merge fun _ => r.merge.add).queue = r.merge.queue := by cases t.child <;> rfl
  have ho : (t.child.elim r.merge fun _ => r.merge.add).outstanding = r.merge.outstanding + t.child.toList.length := by
    cases t.child <;> rfl
  have hext : ∀ m m' : Merge Output, m.queue = m'.queue → m.outstanding = m'.outstanding → m = m' := by
    rintro ⟨q, n⟩ ⟨q', n'⟩ rfl rfl
    rfl
  split
  · next hl =>
    refine hext _ _ ?_ ?_
    · rw [h.queue, queue_foldl_put, hq, hl]
      simp
    · rw [h.outstanding, outstanding_foldl_put, ho]
  · next hl =>
    refine hext _ _ ?_ ?_
    · rw [h.queue, Merge.close, queue_foldl_put, hq, if_neg hl]
    · rw [h.outstanding, Merge.close, outstanding_foldl_put, ho]

theorem Turns.balanced {r r' : Run} {i : Nat} {t : Turn} (h : r.Turns i t r') (hb : r.merge.Balanced r.live) :
    r'.merge.Balanced r'.live := by
  have hlive := h.live
  have hpos : r.live ≠ 0 := by
    have hle := le_sum (fun p => p.isLive.toNat) h.mem_before
    rw [h.acts.isLive, Bool.toNat_true] at hle
    exact Nat.ne_of_gt hle
  have hput := balanced_foldl_put (add_iterate hb t.child) (by omega) t.items
  rw [h.merge]
  split
  · next hl =>
    rw [hl, Bool.toNat_true] at hlive
    rwa [show r'.live = r.live + t.child.toList.length by omega]
  · next hl =>
    rw [Bool.not_eq_true _ |>.mp hl, Bool.toNat_false] at hlive
    refine Merge.Balanced.close ?_
    rwa [show r'.live + 1 = r.live + t.child.toList.length by omega]

/-! ## Soundness -/

/-- What holds of a build under way. -/
structure Sound (r : Run) : Prop where
  /-- The cache is sound. -/
  cache : r.cache.Sound
  /-- Every call stands somewhere that its location accounts for. -/
  stands : ∀ p ∈ r.producers, p.Stands r.cache
  /-- The stream counts the producers that may still add to it. -/
  balanced : r.merge.Balanced r.live
  /-- As long as the manifest of the project is not known, the outputs that tell it are still to come. -/
  project : r.project = none → ∃ items fails, .source items fails ∈ r.producers
  /-- No dependency is begun twice. -/
  distinct : r.handled.Nodup

theorem stands_start {c : Cache} (map : ImportMap) (f : File) (imports : List Script.Import) :
    ∀ o ∈ (Rewriting.start map f imports).left, o.stage.Stands c := by
  intro o ho
  obtain ⟨i, -, ho⟩ := List.mem_filterMap.1 ho
  obtain ⟨name, -, rfl⟩ := Option.map_eq_some_iff.1 ho
  exact stands_ofSpecifier map f.name name

/-- What becomes of the last specifier that is left. -/
theorem settle?_cases {w w' : Rewriting} {o : Option Output} (h : w.settle? = some (w', o)) :
    ∃ first left, w.left = first :: left ∧
      ((∃ e, first.stage = .done (.error e) ∧ w' = { w with left } ∧
        o = some (.diagnostic w.file.name (Rewriting.report w.text first e))) ∨
      ∃ target, first.stage = .done (.ok target) ∧ o = none ∧ w' = { w with
        left
        text := if target == first.name then w.text
          else splice w.text first.span.start first.span.stop (Rewriting.replacement first target) }) := by
  unfold Rewriting.settle? at h
  split at h
  · exact absurd h (by simp)
  · next first left hl =>
    refine ⟨first, left, hl, ?_⟩
    split at h
    · next e hs =>
      obtain ⟨rfl, rfl⟩ := Prod.mk.inj (Option.some.inj h)
      exact Or.inl ⟨e, hs, rfl, rfl⟩
    · next target hs =>
      obtain ⟨rfl, rfl⟩ := Prod.mk.inj (Option.some.inj h)
      exact Or.inr ⟨target, hs, rfl, rfl⟩
    · exact absurd h (by simp)

theorem settle?_left {w w' : Rewriting} {o : Option Output} (h : w.settle? = some (w', o)) :
    w'.file = w.file ∧ ∃ first, w.left = first :: w'.left := by
  obtain ⟨first, left, hl, ⟨e, -, rfl, -⟩ | ⟨target, -, -, rfl⟩⟩ := settle?_cases h
  · exact ⟨rfl, first, hl⟩
  · exact ⟨rfl, first, hl⟩

/-- A turn keeps a sound cache, and every call stands. -/
theorem Acts.stands {r : Run} {t : Turn} (h : r.Acts t) (hc : r.cache.Sound) (hb : t.before.Stands r.cache) :
    Kept r.cache t.cache ∧ t.after.Stands t.cache ∧ ∀ p, t.child = some p → p.Stands t.cache := by
  cases h with
  | read hs =>
    refine ⟨.refl hc, trivial, fun p hp => ?_⟩
    obtain rfl := Option.some.inj hp
    exact trivial
  | begin h => exact ⟨.refl hc, Cache.Expects.turn, by simp⟩
  | wait h =>
    obtain ⟨hkept, hstands⟩ := kept_resume hc hb h
    exact ⟨hkept, hstands, by simp⟩
  | missing h => exact ⟨(kept_resume hc hb h).1, trivial, by simp⟩
  | found h => exact ⟨(kept_resume hc hb h).1, ⟨_, .turn⟩, by simp⟩
  | parse h => exact ⟨.refl hc, ⟨hb, stands_start r.map _ _⟩, by simp⟩
  | @settle w w' m o h =>
    obtain ⟨-, first, hleft⟩ := settle?_left h
    exact ⟨.refl hc, ⟨hb.1, fun o ho => hb.2 o (by rw [hleft]; exact List.mem_cons_of_mem _ ho)⟩, by simp⟩
  | @resolve w m m' k o c c' st l hk hm hs =>
    obtain ⟨hm₁, hm₂⟩ := hb.1.load hc hm
    obtain ⟨hs₁, hs₂⟩ := ((hb.2 o (List.mem_of_getElem? hk)).mono hm₁.grows).step hm₁.sound hs
    have hgrows := hm₁.grows.trans hs₁.grows
    refine ⟨⟨hs₁.sound, hgrows⟩, ⟨hm₂.mono hs₁.grows, fun o' ho' => ?_⟩, fun p hp => ?_⟩
    · rcases List.mem_or_eq_of_mem_set ho' with ho' | rfl
      · exact (hb.2 o' ho').mono hgrows
      · exact hs₂
    · obtain ⟨l, -, rfl⟩ := Option.map_eq_some_iff.1 hp
      exact trivial
  | _ => exact ⟨.refl hc, trivial, by simp⟩

/-- The manifest of the project is known behind the outputs that tell it. -/
theorem Acts.project {r : Run} {t : Turn} (h : r.Acts t) (hp : t.project = none) : r.project = none ∧
    ((∃ items fails, t.before = .source items fails) → ∃ items fails, t.after = .source items fails) := by
  cases h with
  | finish => exact absurd hp (by simp)
  | manifest => exact absurd hp (by simp)
  | crash => exact absurd hp (by simp)
  | report => exact ⟨hp, fun _ => ⟨_, _, rfl⟩⟩
  | read => exact ⟨hp, fun _ => ⟨_, _, rfl⟩⟩
  | copy => exact ⟨hp, fun _ => ⟨_, _, rfl⟩⟩
  | _ => exact ⟨hp, fun ⟨items, fails, hb⟩ => absurd hb (by simp)⟩

/-- A dependency that is begun was not begun before. -/
theorem Acts.fresh {r : Run} {t : Turn} (h : r.Acts t) {l : Location} (hl : t.begun = some l) :
    written l ∉ r.handled := by
  cases h with
  | begin h =>
    obtain rfl := Option.some.inj hl
    exact h
  | _ => exact absurd hl (by simp)

theorem Turns.sound {r r' : Run} {i : Nat} {t : Turn} (h : r.Turns i t r') (hr : r.Sound) : r'.Sound := by
  obtain ⟨hkept, hafter, hchild⟩ := h.acts.stands hr.cache (hr.stands _ h.mem_before)
  refine ⟨h.cache ▸ hkept.sound, fun p hp => ?_, h.balanced hr.balanced, fun hp => ?_, ?_⟩
  · rw [h.cache]
    rcases h.mem_cases hp with hp | rfl | hp
    · exact (hr.stands p hp).mono hkept.grows
    · exact hafter
    · exact hchild p hp
  · rw [h.project] at hp
    obtain ⟨hnone, hstays⟩ := h.acts.project hp
    obtain ⟨items, fails, hmem⟩ := hr.project hnone
    rcases h.mem_of_ne hmem with hb | hmem
    · obtain ⟨items', fails', ha⟩ := hstays ⟨items, fails, hb.symm⟩
      exact ⟨items', fails', ha ▸ h.mem_after⟩
    · exact ⟨items, fails, hmem⟩
  · rw [h.handled]
    rcases hb : t.begun with _ | l
    · exact hr.distinct
    · exact List.nodup_cons.2 ⟨h.acts.fresh hb, hr.distinct⟩

theorem Does.sound {r r' : Run} {m : Move} (h : r.Does m r') (hr : r.Sound) : r'.Sound := by
  cases h with
  | turn h => exact h.sound hr
  | rest => exact hr
  | answer n a =>
    exact ⟨hr.cache.complete, fun p hp => (hr.stands p hp).mono .complete, hr.balanced, hr.project, hr.distinct⟩
  | take h => exact ⟨hr.cache, hr.stands, hr.balanced.take h, hr.project, hr.distinct⟩

theorem sound_begin {r : Run} (hc : r.cache.Sound) (hm : r.merge = {}) (hd : r.handled.Nodup) (items : List Output) (fails : Bool) :
    (r.begin items fails).Sound where
  cache := hc
  stands p hp := by
    obtain rfl : p = .source items fails := by simpa [begin, spawn] using hp
    exact trivial
  balanced := by
    have hadd : Merge.Balanced 1 ({} : Merge Output).add := Merge.balanced_empty.add
    rw [← hm] at hadd
    exact hadd
  project _ := ⟨items, fails, by simp [begin, spawn]⟩
  distinct := hd

/-! ## Many moves -/

/-- What moves do in order. -/
def play (r : Run) (ms : List Move) : Run := ms.foldl step r

/-- What the consumer takes in a move. -/
def took (r : Run) : Move → List Output
  | .take => (r.merge.take?.bind (·.1)).toList
  | _ => []

/-- What the consumer takes in some moves. -/
def taken : Run → List Move → List Output
  | _, [] => []
  | r, m :: ms => r.took m ++ taken (r.step m) ms

theorem play_append (r : Run) (ms ms' : List Move) : r.play (ms ++ ms') = (r.play ms).play ms' := List.foldl_append

theorem play_concat (r : Run) (ms : List Move) (m : Move) : r.play (ms ++ [m]) = (r.play ms).step m := r.play_append ms [m]

theorem taken_concat (r : Run) (ms : List Move) (m : Move) :
    r.taken (ms ++ [m]) = r.taken ms ++ (r.play ms).took m := by
  induction ms generalizing r with
  | nil => exact List.append_nil _
  | cons m' ms ih => 
    show r.took m' ++ (r.step m').taken (ms ++ [m]) = r.took m' ++ (r.step m').taken ms ++ _
    rw [ih, List.append_assoc]
    rfl

theorem Sound.play {r : Run} (h : r.Sound) (ms : List Move) : (r.play ms).Sound := by
  induction ms using List.reverseRecOn with
  | nil => exact h
  | append_singleton ms m ih =>
    rw [play_concat]
    exact (step_cases _ m).sound ih

end Run

end BareImports.Build
