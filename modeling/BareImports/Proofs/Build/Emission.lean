import BareImports.Proofs.Build.Containment
import BareImports.Proofs.Cdn.Locating

/-!
# What comes of scripts and of dependencies

* `Repeats S l`, `answers_eq` : two fetches of a location come to the same;
* `AnsweredBy S r ms`, `mirrors_play` : requests in flight are answered as the site answers them;
* `Given r ms o` : an output was taken or waits to be taken;
* `Added r ms i l` : producer `i` added a dependency, whose file it has found to be there;
* `Reading r ms i f`, `reading_of_was` : how far a script is that was read;
* `Fate r ms l`, `fate_of_handled` : how far a dependency is that was begun;
* `Emitted S map url r outs`, `Emitted.mem_of_added` : behind some batches the files of all dependencies that were added in
  the last one were given, in it or before.
-/

namespace BareImports

open Text Cdn Location

/-! ## Fetches that repeat -/

namespace Cdn

open Build (Site)

/-- All fetches of a location come to the same: its version is exact, or its range is served like an exact one. -/
def Repeats (S : Site) (l : Location) : Prop := Version.isExact l.version = true ∨ Canonical S ∧ Steady S l

namespace Cache

variable {S : Site} {c : Cache} {l : Location}

/-- One thing is served for a key. -/
theorem Sound.served_eq (h : c.Sound) {k : String} {r r' : Except Failure Fetched} (hr : c.Served k r) (hr' : c.Served k r') :
    r = r' := by
  have hdownload : ∀ {n d}, c.downloads[n]? = some d → d.location.key = k → c.files.lookup k = some (.download n) :=
    fun hd hk => hk ▸ h.requested _ _ hd
  rcases hr with ⟨n, d, hd, hk, ho⟩ | ⟨f, hf, rfl⟩
  · rcases hr' with ⟨n', d', hd', hk', ho'⟩ | ⟨f', hf', rfl⟩
    · obtain rfl := h.eq_of_key hd hd' (hk.trans hk'.symm)
      obtain rfl := Option.some.inj (hd.symm.trans hd')
      exact Option.some.inj (ho.symm.trans ho')
    · exact absurd ((hdownload hd hk).symm.trans hf') (by simp)
  · rcases hr' with ⟨n', d', hd', hk', -⟩ | ⟨f', hf', rfl⟩
    · exact absurd (hf.symm.trans (hdownload hd' hk')) (by simp)
    · rw [Source.known.inj (Option.some.inj (hf.symm.trans hf'))]

/-- Two fetches of a location that repeats come to the same. -/
theorem answers_eq (h : c.Sound) (hm : Canonical S → c.Mirrors S) (hl : Repeats S l) {x y : Except Failure File}
    (hx : c.Answers l .file x) (hy : c.Answers l .file y) : x = y := by
  rcases hl with he | ⟨hS, hl⟩
  · have hserved : ∀ {z : Except Failure (Goal.Result .file)}, c.Answers l .file z → ∃ r, c.Served l.key r ∧ z = r.map (·.file) := by
      intro z hz
      cases hz with
      | @served m r hm hr =>
        obtain rfl := hm.eq_of_isExact he
        exact ⟨r, hr, rfl⟩
      | immediate _ _ ha => exact absurd ha (by simp [Goal.immediate?])
    obtain ⟨r, hr, rfl⟩ := hserved hx
    obtain ⟨r', hr', rfl⟩ := hserved hy
    rw [h.served_eq hr hr']
  · exact ((hm hS).answers hS hl hx).trans ((hm hS).answers hS hl hy).symm

end Cache

end Cdn

namespace Build

/-! ## Caches behind a turn -/

section Mirrors

variable {S : Site} {c c' : Cache}

theorem mirrors_resume (hc : c.Sound) (hm : c.Mirrors S) {l : Location} {g : Goal} {w : Wait} {st : Status g}
    (hw : c.Expects l w) (hr : c.resume g w = (c', st)) : c'.Mirrors S := by
  have hgoes := hm.goes (Cache.resume_goes (g := g) hc hw)
  rwa [hr] at hgoes

theorem mirrors_load (hc : c.Sound) (hm : c.Mirrors S) {m m' : ManifestSource} {needed : Bool} (h : m.Stands c)
    (hl : Run.load c needed m = (c', m')) : c'.Mirrors S := by
  cases m with
  | loading w =>
    obtain ⟨l, hw⟩ := h
    unfold Run.load at hl
    dsimp only at hl
    split at hl
    · split at hl
      · next hr => exact (Prod.mk.inj hl).1 ▸ mirrors_resume hc hm hw hr
      · next hr => exact (Prod.mk.inj hl).1 ▸ mirrors_resume hc hm hw hr
    · exact (Prod.mk.inj hl).1 ▸ hm
  | project => exact (Prod.mk.inj hl).1 ▸ hm
  | known m => exact (Prod.mk.inj hl).1 ▸ hm

theorem mirrors_step (hc : c.Sound) (hm : c.Mirrors S) {st st' : Stage} {referrer : String}
    {known : Option (Option Value)} {found : Option Location} (h : st.Stands c)
    (hs : st.step referrer known c = (c', st', found)) : c'.Mirrors S := by
  cases st with
  | range l =>
    unfold Stage.step at hs
    dsimp only at hs
    split at hs
    · exact (Prod.mk.inj hs).1 ▸ hm
    · exact (Prod.mk.inj hs).1 ▸ hm
  | entry l w =>
    unfold Stage.step at hs
    dsimp only at hs
    split at hs
    · next hr => exact (Prod.mk.inj hs).1 ▸ mirrors_resume hc hm h hr
    · next hr => exact (Prod.mk.inj hs).1 ▸ mirrors_resume hc hm h hr
    · next hr => exact (Prod.mk.inj hs).1 ▸ mirrors_resume hc hm h hr
  | canonical w =>
    obtain ⟨l, hw⟩ := h
    unfold Stage.step at hs
    dsimp only at hs
    split at hs
    · next hr => exact (Prod.mk.inj hs).1 ▸ mirrors_resume hc hm hw hr
    · next hr => exact (Prod.mk.inj hs).1 ▸ mirrors_resume hc hm hw hr
    · next hr => exact (Prod.mk.inj hs).1 ▸ mirrors_resume hc hm hw hr
  | content l w t =>
    unfold Stage.step at hs
    dsimp only at hs
    split at hs
    · next hr => exact (Prod.mk.inj hs).1 ▸ mirrors_resume hc hm h hr
    · next hr => exact (Prod.mk.inj hs).1 ▸ mirrors_resume hc hm h hr
    · next hr => exact (Prod.mk.inj hs).1 ▸ mirrors_resume hc hm h hr
  | done x => exact (Prod.mk.inj hs).1 ▸ hm

/-- A step that finds a location has fetched its file. -/
theorem Stage.content_of_found {st st' : Stage} {referrer : String} {known : Option (Option Value)} {l : Location}
    (hs : st.step referrer known c = (c', st', some l)) :
    ∃ w t f, st = .content l w t ∧ st' = .done (.ok t) ∧ c.resume .file w = (c', .done (.ok f)) := by
  unfold Stage.step at hs
  split at hs
  · split at hs <;> exact absurd hs (by simp)
  · split at hs <;> exact absurd hs (by simp)
  · split at hs <;> exact absurd hs (by simp)
  · next l' w t =>
    split at hs
    · exact absurd hs (by simp)
    · next c'' f hr =>
      obtain ⟨rfl, rfl, hl⟩ := by simpa using hs
      exact ⟨w, t, f, by rw [hl], rfl, hr⟩
    · exact absurd hs (by simp)
  · exact absurd hs (by simp)

end Mirrors

namespace Run

variable {S : Site} {r r₀ : Run} {ms : List Move} {i j : Nat} {l : Location} {f : File} {o : Output}

/-- A turn keeps a cache a mirror of the site. -/
theorem Acts.mirrors {t : Turn} (h : r.Acts t) (hc : r.cache.Sound) (hb : t.before.Stands r.cache) (hm : r.cache.Mirrors S) :
    t.cache.Mirrors S := by
  cases h with
  | wait hr => exact mirrors_resume hc hm hb hr
  | missing hr => exact mirrors_resume hc hm hb hr
  | found hr => exact mirrors_resume hc hm hb hr
  | @resolve w m m' k o c c' st l hk hl hs =>
    obtain ⟨hkept, -⟩ := hb.1.load hc hl
    exact mirrors_step hkept.sound (mirrors_load hc hm hb.1 hl) ((hb.2 o (List.mem_of_getElem? hk)).mono hkept.grows) hs
  | _ => exact hm

/-- In some moves, the requests in flight are answered as the site answers them. -/
def AnsweredBy (S : Site) (r : Run) (ms : List Move) : Prop :=
  ∀ before n a url, before ++ [.answer n a] <+: ms → (n, url) ∈ (r.play before).cache.inFlight → a = S.cdn url

theorem AnsweredBy.of_prefix {ms' : List Move} (h : AnsweredBy S r ms') (hms : ms <+: ms') : AnsweredBy S r ms :=
  fun before n a url hb => h before n a url (hb.trans hms)

theorem mirrors_play (hS : Canonical S) (hs : r.Sound) (hm : r.cache.Mirrors S) (ha : AnsweredBy S r ms) :
    (r.play ms).cache.Mirrors S := by
  induction ms using List.reverseRecOn with
  | nil => exact hm
  | append_singleton ms m ih =>
    have hbefore := ih (ha.of_prefix (List.prefix_append ms [m]))
    have hdoes := step_cases (r.play ms) m
    rw [play_concat]
    generalize hr : (r.play ms).step m = r' at hdoes ⊢
    cases hdoes with
    | turn h =>
      rw [h.cache]
      exact h.acts.mirrors (hs.play ms).cache ((hs.play ms).stands _ h.mem_before) hbefore
    | rest => exact hbefore
    | answer n a => exact hbefore.complete hS fun url => ha ms n a url List.prefix_rfl
    | take h => exact hbefore

/-! ## The stream -/

/-- An output was taken in some moves, or waits to be taken behind them. -/
def Given (r : Run) (ms : List Move) (o : Output) : Prop := o ∈ r.taken ms ∨ some o ∈ (r.play ms).merge.queue

theorem Given.concat (h : r.Given ms o) (m : Move) : r.Given (ms ++ [m]) o := by
  unfold Given
  rw [taken_concat, play_concat]
  rcases h with h | h
  · exact Or.inl (List.mem_append_left _ h)
  have hdoes := step_cases (r.play ms) m
  generalize hr : (r.play ms).step m = r' at hdoes ⊢
  cases hdoes with
  | turn ht =>
    rw [ht.queue, List.append_assoc]
    exact Or.inr (List.mem_append_left _ h)
  | rest => exact Or.inr h
  | answer n a => exact Or.inr h
  | @take e q ht =>
    rw [(Merge.take?_eq_some ht).1] at h
    rcases List.mem_cons.1 h with rfl | h
    · refine Or.inl (List.mem_append_right _ ?_)
      show o ∈ ((r.play ms).merge.take?.bind (·.1)).toList
      rw [ht]
      exact List.mem_singleton_self o
    · exact Or.inr h

/-- What a producer gives in a turn waits to be taken. -/
theorem Turns.given {m : Move} {t : Turn} (h : (r.play ms).Turns i t (r.play (ms ++ [m]))) (ho : o ∈ t.items) :
    r.Given (ms ++ [m]) o := by
  refine Or.inr ?_
  rw [h.queue]
  exact List.mem_append_left _ (List.mem_append_right _ (List.mem_map_of_mem ho))

/-- When the stream is over, what was given was taken. -/
theorem Given.mem_taken (h : r.Given ms o) (hs : r.Sound) (hover : (r.play ms).merge.isOver = true) : o ∈ r.taken ms := by
  refine h.resolve_right fun hqueue => ?_
  rw [((hs.play ms).balanced.over hover).2.1] at hqueue
  exact absurd hqueue (by simp)

/-- When the stream is over, all producers have ended. -/
theorem ended_of_over (hs : r.Sound) (hover : (r.play ms).merge.isOver = true) {p : Producer}
    (hp : (r.play ms).producers[i]? = some p) : p = .ended := by
  have hle := le_sum (fun p => p.isLive.toNat) (List.mem_of_getElem? hp)
  rw [show (r.play ms).total (fun p => p.isLive.toNat) = 0 from ((hs.play ms).balanced.over hover).1] at hle
  cases p with
  | ended => rfl
  | _ => exact absurd hle (by simp [Producer.isLive])

/-! ## Producers -/

/-- In a move a producer stays what it is, or has a turn. -/
theorem stays_or_turns {p : Producer} (h : (r.play ms).producers[i]? = some p) (m : Move) :
    (r.play (ms ++ [m])).producers[i]? = some p ∨
      ∃ t, (r.play ms).Turns i t (r.play (ms ++ [m])) ∧ t.before = p := by
  have hlt := (List.getElem?_eq_some_iff.1 h).1
  have hdoes := step_cases (r.play ms) m
  rw [play_concat]
  generalize (r.play ms).step m = r' at hdoes ⊢
  cases hdoes with
  | @turn _ j t _ ht =>
    by_cases hij : i = j
    · subst hij
      exact Or.inr ⟨t, ht, Option.some.inj (ht.before.symm.trans h)⟩
    · refine Or.inl ?_
      rw [ht.getElem?, if_neg hij, if_neg (by omega), h]
  | rest => exact Or.inl h
  | answer n a => exact Or.inl h
  | take ht => exact Or.inl h

/-- A producer that was one behind some more moves was one before the last of them, or is it now. -/
theorem Was.of_concat {m : Move} {p : Producer} (h : r.Was (ms ++ [m]) i p) :
    r.Was ms i p ∨ (r.play (ms ++ [m])).producers[i]? = some p := by
  obtain ⟨before, hb, hp⟩ := h
  rcases List.prefix_concat_iff.1 hb with rfl | hb
  · exact Or.inr hp
  · exact Or.inl ⟨before, hb, hp⟩

/-- All that a producer was is named alike. -/
theorem Was.name_eq {p q : Producer} {n n' : String} (hp : r.Was ms i p) (hq : r.Was ms i q) (hn : p.name? = some n)
    (hn' : q.name? = some n') : n = n' := by
  have hlater : ∀ {before after : List Move} {p q : Producer} {n n' : String}, (r.play before).producers[i]? = some p →
      (r.play (before ++ after)).producers[i]? = some q → p.name? = some n → q.name? = some n' → n = n' := by
    intro before after p q n n' hp hq hn hn'
    have hworks : ((r.play before).play after).WorksOn i n := WorksOn.play ⟨p, hp, Or.inr hn⟩ after
    obtain ⟨q', hq', hnow⟩ := hworks
    rw [← play_append, hq] at hq'
    obtain rfl := Option.some.inj hq'
    rcases hnow with rfl | hnow
    · exact absurd hn' (by simp [Producer.name?])
    · exact Option.some.inj (hnow.symm.trans hn')
  obtain ⟨before, hb, hp⟩ := hp
  obtain ⟨before', hb', hq⟩ := hq
  rcases List.prefix_or_prefix_of_prefix hb hb' with ⟨after, rfl⟩ | ⟨after, rfl⟩
  · exact hlater hp hq hn hn'
  · exact (hlater hq hp hn' hn).symm

/-- In some moves, producer `i` added a dependency, whose file it had found to be there. -/
def Added (r : Run) (ms : List Move) (i : Nat) (l : Location) : Prop :=
  ∃ before m t, before ++ [m] <+: ms ∧ (r.play before).Turns i t (r.play (before ++ [m])) ∧ t.child = some (.dependency l)

theorem Added.mono {ms' : List Move} (h : r.Added ms i l) (hms : ms <+: ms') : r.Added ms' i l := by
  obtain ⟨before, m, t, hb, hrest⟩ := h
  exact ⟨before, m, t, hb.trans hms, hrest⟩

theorem Added.was (h : r.Added ms i l) : ∃ j, r.Was ms j (.dependency l) := by
  obtain ⟨before, m, t, hb, ht, hchild⟩ := h
  have hlt := ht.lt
  refine ⟨(r.play before).producers.length, before ++ [m], hb, ?_⟩
  rw [ht.getElem? (r.play before).producers.length, if_neg (by omega), if_pos rfl, hchild]

/-- The file of a dependency was fetched before it was added. -/
theorem Added.answers (h : r.Added ms i l) (hs : r.Sound) : ∃ f, (r.play ms).cache.Answers l .file (.ok f) := by
  obtain ⟨before, m, t, hb, ht, hchild⟩ := h
  have hsound := hs.play before
  have hstands := hsound.stands _ ht.mem_before
  obtain ⟨f, hf⟩ : ∃ f, t.cache.Answers l .file (.ok f) := by
    have hacts := ht.acts
    generalize r.play before = r' at hacts hsound hstands
    cases hacts with
    | read => exact absurd hchild (by simp)
    | @resolve w m₁ m₂ k o c c' st found hk hm hst =>
      obtain ⟨l', rfl, hl⟩ := Option.map_eq_some_iff.1 hchild
      obtain rfl := Producer.dependency.inj hl
      obtain ⟨w', t', f, hstage, -, hr⟩ := Stage.content_of_found hst
      obtain ⟨hkept, -⟩ := hstands.1.load hsound.cache hm
      have hexpects : o.stage.Stands c := (hstands.2 o (List.mem_of_getElem? hk)).mono hkept.grows
      rw [hstage] at hexpects
      exact ⟨f, (kept_resume hkept.sound hexpects hr).2⟩
    | _ => exact absurd hchild (by simp)
  rw [← ht.cache] at hf
  obtain ⟨after, rfl⟩ := hb
  rw [play_append]
  exact ⟨f, Cache.Stands.mono (s := .done (.ok f)) hf ((hs.play _).grows_play after)⟩

/-! ## Scripts -/

/-- How far a script is that a producer has to rewrite. -/
inductive Reading (r : Run) (ms : List Move) (i : Nat) (f : File) : Prop
  /-- It is to be read. -/
  | unread {m : ManifestSource} (h : (r.play ms).producers[i]? = some (.script f m))
  /-- It is being rewritten. -/
  | writes {w : Rewriting} {m : ManifestSource} {given : List Output} {imports : List Script.Import}
    {results : List (Open × Except Failure String)} {rest : List Open}
    (hi : (r.play ms).producers[i]? = some (.rewriting w m)) (h : Writes r ms i f w given imports results rest)
    (hgiven : ∀ o ∈ given, r.Given ms o)
  /-- It was given. -/
  | wrote {given : List Output} (hi : (r.play ms).producers[i]? = some .ended) (h : Wrote r ms i f given)
    (hgiven : ∀ o ∈ given, r.Given ms o)

theorem Reading.concat (h : r.Reading ms i f) (m : Move) : r.Reading (ms ++ [m]) i f := by
  cases h with
  | @unread m' hi =>
    rcases stays_or_turns hi m with hi' | ⟨t, ht, hb⟩
    · exact .unread hi'
    have hitems := fun {o} (ho : o ∈ t.items) => ht.given ho
    have hafter := ht.getElem? i
    rw [if_pos rfl] at hafter
    have hacts := ht.acts
    have hmap : (r.play ms).map = r.map := map_play r ms
    clear ht
    generalize r.play ms = r' at hacts hmap
    cases hacts with
    | @parse f' m₁ imports himports =>
      obtain ⟨rfl, rfl⟩ := Producer.script.inj hb
      rw [hmap] at hafter
      have hstart : Writes r (ms ++ [m]) i f' (.start r.map f' imports) [] imports [] _ :=
        ⟨himports, rfl, rfl, rfl, rfl, by simp⟩
      exact .writes hafter hstart (by simp)
    | @fault f' m₁ e he =>
      obtain ⟨rfl, rfl⟩ := Producer.script.inj hb
      exact .wrote hafter (.fault he) fun o ho => hitems ho
    | _ => exact absurd hb (by simp)
  | @writes w m' given imports results rest hi hw hgiven =>
    have hkeep : ∀ o ∈ given, r.Given (ms ++ [m]) o := fun o ho => (hgiven o ho).concat m
    rcases stays_or_turns hi m with hi' | ⟨t, ht, hb⟩
    · exact .writes hi' (hw.concat m) hkeep
    have hitems := fun {o} (ho : o ∈ t.items) => ht.given ho
    have hafter := ht.getElem? i
    rw [if_pos rfl] at hafter
    have hacts := ht.acts
    clear ht
    generalize r.play ms = r' at hacts
    cases hacts with
    | @give w' m₁ hleft =>
      obtain ⟨rfl, rfl⟩ := Producer.rewriting.inj hb
      refine .wrote hafter ((hw.wrote hleft).concat m) fun o ho => ?_
      rcases List.mem_append.1 ho with ho | ho
      · exact hkeep o ho
      · exact hitems ho
    | @settle w' w'' m₁ o hsettle =>
      obtain ⟨rfl, rfl⟩ := Producer.rewriting.inj hb
      obtain ⟨results', rest', hw'⟩ := hw.settle hi hsettle
      refine .writes hafter (hw'.concat m) fun o' ho' => ?_
      rcases List.mem_append.1 ho' with ho' | ho'
      · exact hkeep o' ho'
      · exact hitems ho'
    | @resolve w' m₁ m₂ k o c c' st found hk hm hst =>
      obtain ⟨rfl, rfl⟩ := Producer.rewriting.inj hb
      have hleft := (map_place_set hk st).trans hw.left
      have hw' : Writes r ms i f { w' with left := w'.left.set k { o with stage := st } } given imports results rest :=
        ⟨hw.read, hw.all, hleft, hw.file, hw.state, hw.came⟩
      exact .writes hafter (hw'.concat m) hkeep
    | _ => exact absurd hb (by simp)
  | wrote hi hw hgiven =>
    rcases stays_or_turns hi m with hi' | ⟨t, ht, hb⟩
    · exact .wrote hi' (hw.concat m) fun o ho => (hgiven o ho).concat m
    · exact absurd (hb ▸ ht.acts.isLive) (by decide)

/-- Every script that is to be read is on its way. -/
theorem reading_of_was {m : ManifestSource} (h : r.Was ms i (.script f m)) : r.Reading ms i f := by
  induction ms using List.reverseRecOn with
  | nil =>
    obtain ⟨before, hb, hp⟩ := h
    obtain rfl := List.prefix_nil.1 hb
    exact .unread hp
  | append_singleton ms x ih =>
    rcases h.of_concat with h | h
    · exact (ih h).concat x
    · exact .unread h

/-- When the stream is over, every script was given. -/
theorem wrote_of_was (hs : r.Sound) (hover : (r.play ms).merge.isOver = true) {m : ManifestSource}
    (h : r.Was ms i (.script f m)) : ∃ given, Wrote r ms i f given ∧ ∀ o ∈ given, o ∈ r.taken ms := by
  cases reading_of_was h with
  | unread hi => exact absurd (ended_of_over hs hover hi) (by simp)
  | writes hi => exact absurd (ended_of_over hs hover hi) (by simp)
  | wrote hi hw hgiven => exact ⟨_, hw, fun o ho => (hgiven o ho).mem_taken hs hover⟩

/-! ## Dependencies -/

/-- How far a dependency is that was begun. -/
inductive Fate (r : Run) (ms : List Move) (l : Location) : Prop
  /-- Its file is being fetched. -/
  | fetching {i : Nat} {w : Wait} (h : (r.play ms).producers[i]? = some (.fetching l w))
  /-- Its file is not to be had. -/
  | missing {e : Failure} (h : (r.play ms).cache.Answers l .file (.error e))
  /-- Its file is there. -/
  | found {i : Nat} {x : Cdn.File} {m : ManifestSource} (h : r.Was ms i (.script (Site.fileOf l x) m))

theorem Fate.concat (h : r.Fate ms l) (hs : r.Sound) (m : Move) : r.Fate (ms ++ [m]) l := by
  have hsound := hs.play ms
  cases h with
  | @fetching i w hi =>
    rcases stays_or_turns hi m with hi' | ⟨t, ht, hb⟩
    · exact .fetching hi'
    have hstands := hsound.stands _ ht.mem_before
    have hafter := ht.getElem? i
    rw [if_pos rfl] at hafter
    have hcache := ht.cache
    have hacts := ht.acts
    clear ht
    generalize r.play ms = r' at hacts hsound hstands
    cases hacts with
    | @wait l' w₁ w₂ c hr =>
      obtain ⟨rfl, rfl⟩ := Producer.fetching.inj hb
      exact .fetching hafter
    | @missing l' w₁ c e hr =>
      obtain ⟨rfl, rfl⟩ := Producer.fetching.inj hb
      refine .missing (e := e) ?_
      rw [hcache]
      exact (kept_resume hsound.cache hstands hr).2
    | found hr =>
      obtain ⟨rfl, rfl⟩ := Producer.fetching.inj hb
      exact .found ⟨_, List.prefix_rfl, hafter⟩
    | _ => exact absurd hb (by simp)
  | @missing e h =>
    refine .missing (e := e) ?_
    rw [play_concat]
    exact Cache.Stands.mono (s := .done (.error e)) h ((step_cases _ m).grows hsound)
  | found h => exact .found (h.mono (List.prefix_append ms [m]))

/-- A dependency that was begun in some moves has a fate. -/
theorem fate_of_handled (hs : r.Sound) {key : String} (h : key ∈ (r.play ms).handled) :
    key ∈ r.handled ∨ ∃ i l, written l = key ∧ r.Was ms i (.dependency l) ∧ r.Fate ms l := by
  induction ms using List.reverseRecOn with
  | nil => exact Or.inl h
  | append_singleton ms m ih =>
    have hms : ms <+: ms ++ [m] := List.prefix_append ms [m]
    have hbefore : key ∈ (r.play ms).handled → key ∈ r.handled ∨
        ∃ i l, written l = key ∧ r.Was (ms ++ [m]) i (.dependency l) ∧ r.Fate (ms ++ [m]) l := by
      intro h
      refine (ih h).imp_right ?_
      rintro ⟨i, l, hkey, hwas, hfate⟩
      exact ⟨i, l, hkey, hwas.mono hms, hfate.concat hs m⟩
    have hdoes := step_cases (r.play ms) m
    have hplay := play_concat r ms m
    generalize (r.play ms).step m = r' at hdoes hplay
    rw [hplay] at h
    cases hdoes with
    | @turn _ i t _ ht =>
      rw [ht.handled] at h
      rcases List.mem_append.1 h with h | h
      swap
      · exact hbefore h
      obtain ⟨l, hl, rfl⟩ := Option.map_eq_some_iff.1 (Option.mem_toList.1 h)
      have hi := ht.before
      have hafter := ht.getElem? i
      rw [if_pos rfl] at hafter
      have hacts := ht.acts
      generalize hr : r.play ms = r'' at hacts hi
      cases hacts with
      | begin =>
        obtain rfl := Option.some.inj hl
        exact Or.inr ⟨i, _, rfl, ⟨ms, hms, hr ▸ hi⟩, .fetching (hplay ▸ hafter)⟩
      | _ => exact absurd hl (by simp)
    | rest => exact hbefore h
    | answer n a => exact hbefore h
    | take ht => exact hbefore h

theorem Does.handled_subset {r' : Run} {m : Move} (h : r.Does m r') : r.handled ⊆ r'.handled := by
  cases h with
  | turn ht =>
    rw [ht.handled]
    exact List.subset_append_right _ _
  | rest => exact List.Subset.refl _
  | answer n a => exact List.Subset.refl _
  | take ht => exact List.Subset.refl _

/-- A dependency that was added is to be begun, or was begun. -/
theorem handled_of_was (h : r.Was ms i (.dependency l)) :
    (r.play ms).producers[i]? = some (.dependency l) ∨ written l ∈ (r.play ms).handled := by
  induction ms using List.reverseRecOn with
  | nil =>
    obtain ⟨before, hb, hp⟩ := h
    obtain rfl := List.prefix_nil.1 hb
    exact Or.inl hp
  | append_singleton ms m ih =>
    have hsub : (r.play ms).handled ⊆ (r.play (ms ++ [m])).handled := by
      rw [play_concat]
      exact (step_cases _ m).handled_subset
    rcases h.of_concat with h | h
    swap
    · exact Or.inl h
    rcases ih h with hi | hi
    swap
    · exact Or.inr (hsub hi)
    rcases stays_or_turns hi m with hi' | ⟨t, ht, hb⟩
    · exact Or.inl hi'
    have hhandled := ht.handled
    have hacts := ht.acts
    clear ht
    generalize r.play ms = r' at hacts hhandled hsub
    refine Or.inr ?_
    cases hacts with
    | known hmem =>
      obtain rfl := Producer.dependency.inj hb
      exact hsub hmem
    | begin =>
      obtain rfl := Producer.dependency.inj hb
      rw [hhandled]
      exact List.mem_cons_self
    | _ => exact absurd hb (by simp)

/-- Dependencies that are added are shaped. -/
theorem shaped_of_was (hs : r.Sound) (hk : ∀ p ∈ r.producers, p.Keeps (fun _ => True) r.cache)
    (h : r.Was ms i (.dependency l)) : l.Shaped := by
  obtain ⟨before, -, hi⟩ := h
  have hcache : CacheTells (fun _ => True) r.cache := fun _ _ _ => ⟨fun _ _ => trivial, fun _ _ _ => trivial⟩
  have hkeeps := keeps_play hs ⟨hk, hcache⟩ before
    (fun _ _ _ _ _ _ _ _ _ _ => ⟨fun _ _ _ _ _ => trivial, fun _ _ _ _ _ _ _ => trivial⟩)
    fun _ _ _ _ => ⟨fun _ _ => trivial, fun _ _ _ => trivial⟩
  exact (hkeeps.producers _ (List.mem_of_getElem? hi)).shaped

/-! ## Batches -/

theorem keeps_begin (N : String → Prop) (r : Run) (items : List Output) (fails : Bool) :
    ∀ p ∈ (r.begin items fails).producers, p.Keeps N (r.begin items fails).cache := by
  intro p hp
  obtain rfl : p = .source items fails := by simpa [begin, spawn] using hp
  exact trivial

/-- What a script gives ends in a file of its name. -/
theorem Wrote.file {given : List Output} (h : Wrote r ms i f given) : ∃ g, .file g ∈ given ∧ g.name = f.name := by
  cases h with
  | fault => exact ⟨f, List.mem_cons_self, rfl⟩
  | rewritten => exact ⟨_, List.mem_append_right _ (List.mem_singleton_self _), rfl⟩

/-- The file of a location is not to be had, or it was given. -/
def Accounted (c : Cache) (outs : List Output) (l : Location) : Prop :=
  (∃ e, c.Answers l .file (.error e)) ∨ ∃ g, .file g ∈ outs ∧ g.name = fileName l

theorem Accounted.mono {c c' : Cache} {outs outs' : List Output} (h : Accounted c outs l) (hc : c.Extends c')
    (ho : outs ⊆ outs') : Accounted c' outs' l := by
  rcases h with ⟨e, he⟩ | ⟨g, hg, hn⟩
  · exact Or.inl ⟨e, Cache.Stands.mono (s := .done (.error e)) he hc⟩
  · exact Or.inr ⟨g, ho hg, hn⟩

/-- The states of a rewriting between batches that a site has answered, each with all that was given up to it. -/
inductive Emitted (S : Site) (map : ImportMap) (url : String) : Run → List Output → Prop
  /-- Nothing was rewritten so far. -/
  | fresh : Emitted S map url { map, cache := .empty url } []
  /-- A batch was rewritten. -/
  | batch {r : Run} {outs : List Output} (h : Emitted S map url r outs) (items : List Output) (fails : Bool)
    (ms : List Move) (ha : AnsweredBy S (r.begin items fails) ms)
    (hover : ((r.begin items fails).play ms).merge.isOver = true) :
    Emitted S map url ((r.begin items fails).play ms) (outs ++ (r.begin items fails).taken ms)

section Emitted

variable {map : ImportMap} {url : String} {outs : List Output}

theorem Emitted.between (h : Emitted S map url r outs) : Between map url r := by
  induction h with
  | fresh => exact .fresh
  | batch h items fails ms ha hover ih => exact ih.batch items fails ms hover

theorem Emitted.sound_begin (h : Emitted S map url r outs) (items : List Output) (fails : Bool) :
    (r.begin items fails).Sound :=
  have hrests := h.between.rests
  Run.sound_begin hrests.1 hrests.2.1 hrests.2.2 items fails

theorem Emitted.mirrors (h : Emitted S map url r outs) (hb : S.base = withFinalSlash url) (hS : Canonical S) :
    r.cache.Mirrors S := by
  induction h with
  | fresh => exact .empty hb
  | batch h items fails ms ha hover ih => exact mirrors_play hS (h.sound_begin items fails) ih ha

/-- Every location that was begun is accounted for. -/
theorem Emitted.accounted (h : Emitted S map url r outs) {key : String} (hk : key ∈ r.handled) :
    ∃ l, l.Shaped ∧ written l = key ∧ Accounted r.cache outs l := by
  induction h with
  | fresh => exact absurd hk (by simp)
  | @batch r outs h items fails ms ha hover ih =>
    have hs := h.sound_begin items fails
    rcases fate_of_handled hs hk with hk | ⟨i, l, hl, hwas, hfate⟩
    · obtain ⟨l, hshaped, hl, hset⟩ := ih hk
      exact ⟨l, hshaped, hl, hset.mono (hs.grows_play ms) (List.subset_append_left _ _)⟩
    · refine ⟨l, shaped_of_was hs (keeps_begin _ r items fails) hwas, hl, ?_⟩
      cases hfate with
      | fetching hi => exact absurd (ended_of_over hs hover hi) (by simp)
      | missing he => exact Or.inl ⟨_, he⟩
      | found hw =>
        obtain ⟨given, hwrote, hgiven⟩ := wrote_of_was hs hover hw
        obtain ⟨g, hg, hn⟩ := hwrote.file
        exact Or.inr ⟨g, List.mem_append_right _ (hgiven _ hg), hn⟩

/-- Behind a batch the file of every location that was added in it was given, if all fetches of it come to the same. -/
theorem Emitted.mem_of_added (h : Emitted S map url r outs) (hb : S.base = withFinalSlash url) {items : List Output}
    {fails : Bool} (ha : AnsweredBy S (r.begin items fails) ms)
    (hover : ((r.begin items fails).play ms).merge.isOver = true) (hadd : (r.begin items fails).Added ms i l)
    (hl : Repeats S l) : ∃ g, .file g ∈ outs ++ (r.begin items fails).taken ms ∧ g.name = fileName l := by
  have hs := h.sound_begin items fails
  have hafter := h.batch items fails ms ha hover
  obtain ⟨j, hwas⟩ := hadd.was
  have hbegun : written l ∈ ((r.begin items fails).play ms).handled := by
    refine (handled_of_was hwas).resolve_left fun hj => ?_
    exact absurd (ended_of_over hs hover hj) (by simp)
  obtain ⟨k, hk, hkey, hset⟩ := hafter.accounted hbegun
  obtain rfl := hk.eq_of_written (shaped_of_was hs (keeps_begin _ r items fails) hwas) hkey
  refine hset.resolve_left ?_
  rintro ⟨e, he⟩
  obtain ⟨f, hf⟩ := hadd.answers hs
  have heq := Cache.answers_eq (hs.play ms).cache (hafter.mirrors hb) hl hf he
  exact absurd heq (by simp)

end Emitted

end Run

end Build

end BareImports
