import BareImports.Cdn.Cache
import Mathlib.Data.List.Basic
import Mathlib.Logic.Relation

/-!
# What holds of a cache

* `Cache.Extends c c'` : `c'` knows all that `c` knows (`Extends.refl`, `Extends.trans`);
* `Cache.Resolver c n range` : download `n` was started to find out the version of `range`;
* `Cache.Sound c` : the tables agree with the downloads; `Sound.empty`, `Sound.startDownload`, `Sound.complete`;
* `Cache.Resolves c l m` : `m` is `l` under the version that is known for it; `Reaches`, the same repeatedly;
* `resume_cache` : a call leaves the cache alone or starts one download, for a key nothing answers for.
-/

namespace BareImports.Cdn.Cache

/-! ## Tables -/

theorem lookup_cons {β : Type} (k k' : String) (v : β) (table : List (String × β)) :
    ((k', v) :: table).lookup k = if k = k' then some v else table.lookup k := by
  rw [List.lookup_cons]
  by_cases h : k = k'
  · simp [h]
  · rw [beq_eq_false_iff_ne.2 h, if_neg h]

theorem lookup_without {β : Type} (k key : String) (table : List (String × β)) :
    (without key table).lookup k = if k = key then none else table.lookup k := by
  induction table with
  | nil => simp [without]
  | cons e table ih =>
    obtain ⟨k', v⟩ := e
    unfold without at ih ⊢
    rw [List.filter_cons]
    by_cases hk : k' = key
    · subst hk
      rw [if_neg (by simp), ih, lookup_cons]
      split <;> simp_all
    · rw [if_pos (by simpa using hk), lookup_cons, ih, lookup_cons]
      by_cases hkk : k = k'
      · subst hkk
        rw [if_pos rfl, if_neg hk, if_pos rfl]
      · rw [if_neg hkk, if_neg hkk]

/-! ## What a cache keeps -/

/-- `c'` knows all that `c` knows. -/
structure Extends (c c' : Cache) : Prop where
  /-- The base URL stays. -/
  base : c'.base = c.base
  /-- A download stays what it is, and an outcome that it has stays too. -/
  downloads : ∀ (n : Nat) (d : Download), c.downloads[n]? = some d → ∃ d' : Download, c'.downloads[n]? = some d' ∧
    d'.location = d.location ∧ d'.resolves = d.resolves ∧ ∀ r, d.outcome = some r → d'.outcome = some r
  /-- What answers for a key goes on to answer for it. -/
  files : ∀ (k : String) (s : Source), c.files.lookup k = some s → c'.files.lookup k = some s

theorem Extends.refl (c : Cache) : Extends c c :=
  ⟨rfl, fun _ d h => ⟨d, h, rfl, rfl, fun _ hr => hr⟩, fun _ _ h => h⟩

theorem Extends.trans {c c' c'' : Cache} (h : Extends c c') (h' : Extends c' c'') : Extends c c'' := by
  refine ⟨h'.base.trans h.base, fun n d hd => ?_, fun k s hk => h'.files k s (h.files k s hk)⟩
  obtain ⟨d', hd', hl, hs, ho⟩ := h.downloads n d hd
  obtain ⟨d'', hd'', hl', hs', ho'⟩ := h'.downloads n d' hd'
  exact ⟨d'', hd'', hl'.trans hl, hs'.trans hs, fun r hr => ho' r (ho r hr)⟩

theorem Extends.outcome? {c c' : Cache} (h : Extends c c') {n : Nat} {r : Except Failure Fetched}
    (hr : c.outcome? n = some r) : c'.outcome? n = some r := by
  obtain ⟨d, hd, ho⟩ := Option.bind_eq_some_iff.1 hr
  obtain ⟨d', hd', -, -, ho'⟩ := h.downloads n d hd
  exact Option.bind_eq_some_iff.2 ⟨d', hd', ho' r ho⟩

theorem Extends.versionOf? {c c' : Cache} (h : Extends c c') {n : Nat} {v : String}
    (hv : c.versionOf? n = some v) : c'.versionOf? n = some v := by
  unfold Cache.versionOf? at hv ⊢
  split at hv
  · next f hf => rw [h.outcome? hf, h.base]; exact hv
  · exact absurd hv (by simp)

/-! ## Sound caches -/

/-- Download `n` was started to find out the version of a range. -/
def Resolver (c : Cache) (n : Nat) (range : String) : Prop :=
  ∃ d, c.downloads[n]? = some d ∧ d.resolves = true ∧ d.location.pkgVersion = range

theorem Resolver.mono {c c' : Cache} {n : Nat} {range : String} (h : c.Resolver n range) (he : Extends c c') :
    c'.Resolver n range := by
  obtain ⟨d, hd, hs, hl⟩ := h
  obtain ⟨d', hd', hl', hs', -⟩ := he.downloads n d hd
  exact ⟨d', hd', hs'.trans hs, by rw [hl', hl]⟩

/-- Whether a download has not come to a failure so far. -/
def Alive (d : Download) : Prop := ∀ e, d.outcome ≠ some (.error e)

/-- The tables agree with the downloads. -/
structure Sound (c : Cache) : Prop where
  /-- A download that answers for a key was asked for it. -/
  source : ∀ (k : String) (n : Nat), c.files.lookup k = some (.download n) →
    ∃ d : Download, c.downloads[n]? = some d ∧ d.location.key = k
  /-- A download answers for the key that it was asked for. -/
  requested : ∀ (n : Nat) (d : Download), c.downloads[n]? = some d → c.files.lookup d.location.key = some (.download n)
  /-- A file that answers for a key was fetched, and the key is that of its final URL. -/
  known : ∀ (k : String) (f : Fetched), c.files.lookup k = some (.known f) → (∃ l, parseUrl? c.base f.url = some l ∧ l.key = k) ∧
    ∃ n, c.outcome? n = some (.ok f)
  /-- The download of a range in the table finds its version out and has not failed. -/
  resolver : ∀ (range : String) (n : Nat), c.versions.lookup range = some n →
    ∃ d : Download, c.downloads[n]? = some d ∧ d.resolves = true ∧ d.location.pkgVersion = range ∧ Alive d
  /-- A download that finds a version out and has not failed is the one in the table. -/
  registered : ∀ (n : Nat) (d : Download), c.downloads[n]? = some d → d.resolves = true → Alive d →
    c.versions.lookup d.location.pkgVersion = some n
  /-- No download that was started for a range is younger than the one in the table. -/
  youngest : ∀ (range : String) (n m : Nat), c.Resolver n range → c.versions.lookup range = some m → n ≤ m
  /-- A download that found a version out has a final URL that names it. -/
  learned : ∀ (n : Nat) (d : Download) (f : Fetched), c.downloads[n]? = some d → d.resolves = true → d.outcome = some (.ok f) →
    ∃ l, parseUrl? c.base f.url = some l

theorem Sound.empty (url : String) : Sound (.empty url) where
  source := by simp [Cache.empty]
  requested := by simp [Cache.empty]
  known := by simp [Cache.empty]
  resolver := by simp [Cache.empty]
  registered := by simp [Cache.empty]
  youngest := by simp [Cache.empty]
  learned := by simp [Cache.empty]

/-- Two downloads were never asked for one key. -/
theorem Sound.eq_of_key {c : Cache} (h : Sound c) {n m : Nat} {d e : Download} (hd : c.downloads[n]? = some d)
    (he : c.downloads[m]? = some e) (hk : d.location.key = e.location.key) : n = m := by
  have hn := h.requested n d hd
  rw [hk, h.requested m e he] at hn
  simp only [Option.some.injEq, Source.download.injEq] at hn
  exact hn.symm

/-! ## A download is started -/

section Start

variable {c : Cache} {l : Location} {exact : Bool}

theorem getElem?_startDownload (n : Nat) : (c.startDownload l exact).downloads[n]? =
    if n = c.downloads.length then some ⟨l, !exact, none⟩ else c.downloads[n]? := by
  unfold startDownload
  rw [List.getElem?_append]
  split
  · next h => rw [if_neg (by omega)]
  · next h =>
    by_cases he : n = c.downloads.length
    · simp [he]
    · rw [if_neg he, List.getElem?_eq_none (by simp; omega), List.getElem?_eq_none (by omega)]

theorem lookup_files_startDownload (k : String) : (c.startDownload l exact).files.lookup k =
    if k = l.key then some (.download c.downloads.length) else c.files.lookup k := lookup_cons _ _ _ _

theorem lookup_versions_startDownload (k : String) : (c.startDownload l exact).versions.lookup k =
    if exact = false ∧ k = l.pkgVersion then some c.downloads.length else c.versions.lookup k := by
  unfold startDownload
  cases exact
  · simp [lookup_cons]
  · simp

theorem lt_of_getElem? {n : Nat} {d : Download} (h : c.downloads[n]? = some d) : n < c.downloads.length :=
  (List.getElem?_eq_some_iff.1 h).1

theorem Extends.startDownload (hk : c.files.lookup l.key = none) : Extends c (c.startDownload l exact) := by
  refine ⟨rfl, fun n d hd => ⟨d, ?_, rfl, rfl, fun _ h => h⟩, fun k s hs => ?_⟩
  · rw [getElem?_startDownload, if_neg (by have := lt_of_getElem? hd; omega), hd]
  · rw [lookup_files_startDownload, if_neg, hs]
    rintro rfl
    rw [hk] at hs
    exact absurd hs (by simp)

/-- A download is started for a key that nothing answers for; if it is to find a version out, nothing else does. -/
theorem Sound.startDownload (h : Sound c) (hk : c.files.lookup l.key = none)
    (hv : exact = false → c.versions.lookup l.pkgVersion = none) : Sound (c.startDownload l exact) where
  source k n hn := by
    rw [lookup_files_startDownload] at hn
    split at hn
    · next hkey =>
      obtain rfl : c.downloads.length = n := by simpa using hn
      exact ⟨⟨l, !exact, none⟩, by rw [getElem?_startDownload, if_pos rfl], hkey.symm⟩
    · obtain ⟨d, hd, hkey⟩ := h.source k n hn
      exact ⟨d, by rw [getElem?_startDownload, if_neg (by have := lt_of_getElem? hd; omega), hd], hkey⟩
  requested n d hd := by
    rw [getElem?_startDownload] at hd
    rw [lookup_files_startDownload]
    split at hd
    · next hn =>
      obtain rfl := Option.some.inj hd
      rw [if_pos rfl, hn]
    · have hf := h.requested n d hd
      rw [if_neg, hf]
      intro hkey
      rw [hkey, hk] at hf
      exact absurd hf (by simp)
  known k f hf := by
    rw [lookup_files_startDownload] at hf
    split at hf
    · exact absurd hf (by simp)
    · obtain ⟨hl, n, hn⟩ := h.known k f hf
      exact ⟨hl, n, (Extends.startDownload hk).outcome? hn⟩
  resolver range n hn := by
    rw [lookup_versions_startDownload] at hn
    split at hn
    · next hr =>
      obtain rfl : c.downloads.length = n := by simpa using hn
      exact ⟨⟨l, !exact, none⟩, by rw [getElem?_startDownload, if_pos rfl], by simp [hr.1], hr.2.symm,
        fun e => by simp⟩
    · obtain ⟨d, hd, hres⟩ := h.resolver range n hn
      exact ⟨d, by rw [getElem?_startDownload, if_neg (by have := lt_of_getElem? hd; omega), hd], hres⟩
  registered n d hd hs ha := by
    rw [getElem?_startDownload] at hd
    rw [lookup_versions_startDownload]
    split at hd
    · next hn =>
      obtain rfl := Option.some.inj hd
      rw [if_pos ⟨by simpa using hs, rfl⟩, hn]
    · have hr := h.registered n d hd hs ha
      rw [if_neg, hr]
      rintro ⟨he, hrange⟩
      rw [hrange, hv he] at hr
      exact absurd hr (by simp)
  youngest range n m hn hm := by
    obtain ⟨d, hd, hs, hl⟩ := hn
    rw [getElem?_startDownload] at hd
    rw [lookup_versions_startDownload] at hm
    split at hm
    · obtain rfl : c.downloads.length = m := by simpa using hm
      split at hd
      · omega
      · exact Nat.le_of_lt (lt_of_getElem? hd)
    · next hr =>
      split at hd
      · obtain rfl := Option.some.inj hd
        exact absurd ⟨by simpa using hs, hl.symm⟩ hr
      · exact h.youngest range n m ⟨d, hd, hs, hl⟩ hm
  learned n d f hd hs ho := by
    rw [getElem?_startDownload] at hd
    split at hd
    · obtain rfl := Option.some.inj hd
      exact absurd ho (by simp)
    · exact h.learned n d f hd hs ho

end Start

/-! ## A download is answered -/

/-- A cache in which a download has an outcome. -/
def answered (c : Cache) (n : Nat) (d : Download) (r : Except Failure Fetched) : Cache :=
  { c with downloads := c.downloads.set n { d with outcome := some r } }

section Complete

variable {c : Cache} {n : Nat} {d : Download} {a : Answer}

theorem complete_error (hd : c.downloads[n]? = some d) (ho : d.outcome = none) {e : Failure}
    (hj : c.judge d a = .error e) : c.complete n a = (c.answered n d (.error e)).release d n := by
  simp only [complete, hd, ho, hj]
  rfl

theorem complete_ok (hd : c.downloads[n]? = some d) (ho : d.outcome = none) {f : Fetched}
    (hj : c.judge d a = .ok f) : c.complete n a = match c.canonical? d f with
      | some l => (c.answered n d (.ok f)).remember l.key f
      | none => c.answered n d (.ok f) := by
  simp only [complete, hd, ho, hj]
  rfl

/-- Only an answer to a download in flight changes anything. -/
theorem complete_eq_self (h : ∀ d, c.downloads[n]? = some d → d.outcome ≠ none) : c.complete n a = c := by
  unfold complete
  split
  · rfl
  · next d hd =>
    split
    · rfl
    · next ho => exact absurd ho (h d hd)

theorem getElem?_answered (hd : c.downloads[n]? = some d) (r : Except Failure Fetched) (k : Nat) :
    (c.answered n d r).downloads[k]? = if k = n then some { d with outcome := some r } else c.downloads[k]? := by
  unfold answered
  rw [List.getElem?_set]
  by_cases hk : n = k
  · subst hk
    rw [if_pos rfl, if_pos (lt_of_getElem? hd), if_pos rfl]
  · rw [if_neg hk, if_neg (Ne.symm hk)]

theorem lookup_remember (key k : String) (f : Fetched) : (c.remember key f).files.lookup k =
    (c.files.lookup k).or (if k = key then some (.known f) else none) := by
  unfold remember
  split
  · next s hs =>
    by_cases hk : k = key
    · rw [hk, hs, Option.some_or]
    · rw [if_neg hk, Option.or_none]
  · next hs =>
    rw [lookup_cons]
    by_cases hk : k = key
    · rw [if_pos hk, if_pos hk, hk, hs, Option.none_or]
    · rw [if_neg hk, if_neg hk, Option.or_none]

@[simp] theorem downloads_remember (key : String) (f : Fetched) : (c.remember key f).downloads = c.downloads := by
  unfold remember
  split <;> rfl

@[simp] theorem versions_remember (key : String) (f : Fetched) : (c.remember key f).versions = c.versions := by
  unfold remember
  split <;> rfl

@[simp] theorem base_remember (key : String) (f : Fetched) : (c.remember key f).base = c.base := by
  unfold remember
  split <;> rfl

@[simp] theorem downloads_release : (c.release d n).downloads = c.downloads := by
  unfold release
  dsimp only
  split <;> rfl

@[simp] theorem files_release : (c.release d n).files = c.files := by
  unfold release
  dsimp only
  split <;> rfl

@[simp] theorem base_release : (c.release d n).base = c.base := by
  unfold release
  dsimp only
  split <;> rfl

theorem lookup_release (k : String) : (c.release d n).versions.lookup k =
    if d.resolves = true ∧ c.versions.lookup d.location.pkgVersion = some n ∧ k = d.location.pkgVersion then none
    else c.versions.lookup k := by
  unfold release
  dsimp only
  by_cases h : d.resolves = true ∧ c.versions.lookup d.location.pkgVersion = some n
  · rw [if_pos (by simpa using h), lookup_without]
    simp only [h.1, h.2, true_and]
  · rw [if_neg (by simpa using h), if_neg (fun h' => h ⟨h'.1, h'.2.1⟩)]

/-- An answer that is judged to be a file has status 200; the final URL of a resolution names a file. -/
theorem judge_eq_ok {f : Fetched} (h : c.judge d a = .ok f) :
    ∃ r, a = .ok r ∧ r.status = 200 ∧ f = r.fetched ∧
      (d.resolves = true → ∃ l, parseUrl? c.base f.url = some l) := by
  unfold judge at h
  split at h
  · exact absurd h (by simp)
  · next r =>
    split at h
    · exact absurd h (by simp)
    · next hs =>
      refine ⟨r, rfl, by simpa using hs, ?_⟩
      split at h
      · unfold readUrl at h
        split at h
        · next l hl =>
          obtain rfl : r.fetched = f := by simpa [Except.map] using h
          exact ⟨rfl, fun _ => ⟨l, hl⟩⟩
        · exact absurd h (by simp [Except.map])
      · next hr =>
        obtain rfl : r.fetched = f := by simpa using h
        exact ⟨rfl, fun hr' => absurd hr' hr⟩

/-- The downloads after an answer. -/
theorem getElem?_complete (hd : c.downloads[n]? = some d) (ho : d.outcome = none) (k : Nat) :
    (c.complete n a).downloads[k]? =
      if k = n then some { d with outcome := some (c.judge d a) } else c.downloads[k]? := by
  cases hj : c.judge d a with
  | error e => rw [complete_error hd ho hj, downloads_release, getElem?_answered hd]
  | ok f =>
    rw [complete_ok hd ho hj]
    split
    · rw [downloads_remember, getElem?_answered hd]
    · rw [getElem?_answered hd]

theorem canonical?_eq_some {f : Fetched} {l : Location} (h : c.canonical? d f = some l) :
    parseUrl? c.base f.url = some l := by
  unfold canonical? at h
  split at h
  · exact h
  · exact absurd h (by simp)

@[simp] theorem length_complete : (c.complete n a).downloads.length = c.downloads.length := by
  by_cases h : ∃ d, c.downloads[n]? = some d ∧ d.outcome = none
  · obtain ⟨d, hd, ho⟩ := h
    have hlen : ∀ r, (c.answered n d r).downloads.length = c.downloads.length := fun r => List.length_set
    cases hj : c.judge d a with
    | error e => rw [complete_error hd ho hj, downloads_release, hlen]
    | ok f =>
      rw [complete_ok hd ho hj]
      split
      · rw [downloads_remember, hlen]
      · rw [hlen]
  · rw [complete_eq_self fun d hd ho => h ⟨d, hd, ho⟩]

@[simp] theorem base_complete : (c.complete n a).base = c.base := by
  by_cases h : ∃ d, c.downloads[n]? = some d ∧ d.outcome = none
  · obtain ⟨d, hd, ho⟩ := h
    cases hj : c.judge d a with
    | error e => rw [complete_error hd ho hj, base_release]; rfl
    | ok f =>
      rw [complete_ok hd ho hj]
      split
      · rw [base_remember]; rfl
      · rfl
  · rw [complete_eq_self fun d hd ho => h ⟨d, hd, ho⟩]

theorem Extends.complete : Extends c (c.complete n a) := by
  by_cases h : ∃ d, c.downloads[n]? = some d ∧ d.outcome = none
  · obtain ⟨d, hd, ho⟩ := h
    refine ⟨base_complete, fun k e he => ?_, fun k s hs => ?_⟩
    · rw [getElem?_complete hd ho]
      split
      · next hk =>
        rw [hk, hd] at he
        obtain rfl := Option.some.inj he
        exact ⟨_, rfl, rfl, rfl, fun r hr => by rw [ho] at hr; exact absurd hr (by simp)⟩
      · exact ⟨e, he, rfl, rfl, fun _ hr => hr⟩
    · cases hj : c.judge d a with
      | error e => rw [complete_error hd ho hj, files_release]; exact hs
      | ok f =>
        rw [complete_ok hd ho hj]
        split
        · rw [lookup_remember]
          change (c.files.lookup k).or _ = _
          rw [hs, Option.some_or]
        · exact hs
  · rw [complete_eq_self fun d hd ho => h ⟨d, hd, ho⟩]
    exact .refl c

/-- The version table after an answer: a resolution that fails gives its range up. -/
theorem lookup_versions_complete (h : Sound c) (hd : c.downloads[n]? = some d) (ho : d.outcome = none)
    (k : String) : (c.complete n a).versions.lookup k =
      if (c.judge d a).toBool = false ∧ d.resolves = true ∧ k = d.location.pkgVersion then none
      else c.versions.lookup k := by
  cases hj : c.judge d a with
  | error e =>
    rw [complete_error hd ho hj, lookup_release]
    by_cases hs : d.resolves = true
    · have hreg := h.registered n d hd hs (fun e => by rw [ho]; simp)
      simp [answered, hs, hreg, Except.toBool]
    · simp [answered, hs]
  | ok f =>
    rw [complete_ok hd ho hj, if_neg (by simp [Except.toBool])]
    split
    · rw [versions_remember]; rfl
    · rfl

/-- A key that answers only since an answer came is the one under which the file is kept. -/
theorem files_complete_cases (hd : c.downloads[n]? = some d) (ho : d.outcome = none) {k : String} {s : Source}
    (hs : (c.complete n a).files.lookup k = some s) : c.files.lookup k = some s ∨
      ∃ f l, c.judge d a = .ok f ∧ s = .known f ∧ c.canonical? d f = some l ∧ k = l.key := by
  cases hj : c.judge d a with
  | error e =>
    rw [complete_error hd ho hj, files_release] at hs
    exact Or.inl hs
  | ok f =>
    rw [complete_ok hd ho hj] at hs
    split at hs
    · next l hl =>
      rw [lookup_remember, Option.or_eq_some_iff] at hs
      rcases hs with hs | ⟨-, hs⟩
      · exact Or.inl hs
      · split at hs
        · next hk => exact Or.inr ⟨f, l, rfl, (Option.some.inj hs).symm, hl, hk⟩
        · exact absurd hs (by simp)
    · exact Or.inl hs

theorem Sound.complete (h : Sound c) : Sound (c.complete n a) := by
  by_cases hfl : ∃ d, c.downloads[n]? = some d ∧ d.outcome = none
  swap
  · rw [complete_eq_self fun d hd ho => hfl ⟨d, hd, ho⟩]
    exact h
  obtain ⟨d, hd, ho⟩ := hfl
  have hext : Extends c (c.complete n a) := .complete
  have hget := fun k => getElem?_complete (a := a) hd ho k
  have hver := lookup_versions_complete (a := a) h hd ho
  refine ⟨?source, ?requested, ?known, ?resolver, ?registered, ?youngest, ?learned⟩
  case source =>
    intro k m hm
    rcases files_complete_cases hd ho hm with hm | ⟨f, l, -, hs, -⟩
    · obtain ⟨e, he, hk⟩ := h.source k m hm
      obtain ⟨e', he', hl, -⟩ := hext.downloads m e he
      exact ⟨e', he', by rw [hl, hk]⟩
    · exact absurd hs (by simp)
  case requested =>
    intro m e he
    rw [hget] at he
    split at he
    · next hm =>
      obtain rfl := Option.some.inj he
      rw [hm]
      exact hext.files _ _ (h.requested n d hd)
    · exact hext.files _ _ (h.requested m e he)
  case known =>
    intro k f hf
    rcases files_complete_cases hd ho hf with hf | ⟨f', l, hj, hs, hl, hk⟩
    · obtain ⟨hl, m, hm⟩ := h.known k f hf
      rw [base_complete]
      exact ⟨hl, m, hext.outcome? hm⟩
    · obtain rfl : f = f' := by simpa using hs
      rw [base_complete]
      refine ⟨⟨l, canonical?_eq_some hl, hk.symm⟩, n, ?_⟩
      simp [Cache.outcome?, hget, hj]
  case resolver =>
    intro range m hm
    rw [hver] at hm
    split at hm
    · exact absurd hm (by simp)
    · next hnot =>
      obtain ⟨e, he, hs, hr, ha⟩ := h.resolver range m hm
      by_cases hmn : m = n
      · rw [hmn, hd] at he
        obtain rfl := Option.some.inj he
        refine ⟨{ d with outcome := some (c.judge d a) }, by rw [hget, if_pos hmn], hs, hr,
          fun x hx => hnot ⟨?_, hs, hr.symm⟩⟩
        rw [Option.some.inj hx, Except.toBool]
      · exact ⟨e, by rw [hget, if_neg hmn, he], hs, hr, ha⟩
  case registered =>
    intro m e he hs ha
    rw [hget] at he
    rw [hver]
    split at he
    · next hm =>
      obtain rfl := Option.some.inj he
      rw [if_neg, h.registered n d hd hs (fun x => by rw [ho]; simp), hm]
      rintro ⟨hj, -⟩
      cases hjudge : c.judge d a with
      | error x => exact ha x (by simp [hjudge])
      | ok f => simp [hjudge, Except.toBool] at hj
    · next hm =>
      have hreg := h.registered m e he hs ha
      rw [if_neg, hreg]
      rintro ⟨-, hs', hr⟩
      rw [hr, h.registered n d hd hs' (fun x => by rw [ho]; simp)] at hreg
      exact hm (Option.some.inj hreg).symm
  case youngest =>
    intro range m k hm hk
    rw [hver] at hk
    split at hk
    · exact absurd hk (by simp)
    · refine h.youngest range m k ?_ hk
      obtain ⟨e, he, hs, hr⟩ := hm
      rw [hget] at he
      split at he
      · next hmn =>
        obtain rfl := Option.some.inj he
        exact ⟨d, by rw [hmn, hd], hs, hr⟩
      · exact ⟨e, he, hs, hr⟩
  case learned =>
    intro m e f he hs hf
    rw [hget] at he
    rw [base_complete]
    split at he
    · obtain rfl := Option.some.inj he
      obtain ⟨-, -, -, -, hl⟩ := judge_eq_ok (Option.some.inj hf)
      exact hl hs
    · exact h.learned m e f he hs hf

end Complete

/-! ## What a call is after -/

/-- `m` is `l` under the version that is known for it. -/
inductive Resolves (c : Cache) (l : Location) : Location → Prop
  /-- The version is exact. -/
  | exact (h : Version.isExact l.version = true) : Resolves c l l
  /-- A download has found the version out. -/
  | pinned {n : Nat} {v : String} (h : Version.isExact l.version = false) (hn : c.Resolver n l.pkgVersion)
      (hv : c.versionOf? n = some v) : Resolves c l { l with version := v }

/-- `m` is `l` under versions that are known, taken repeatedly. -/
abbrev Reaches (c : Cache) : Location → Location → Prop := Relation.ReflTransGen c.Resolves

/-- A version that is known leaves the package and the path as they are. -/
theorem Resolves.package {c : Cache} {l m : Location} (h : c.Resolves l m) : m.pkg = l.pkg ∧ m.path = l.path := by
  cases h with
  | exact h => exact ⟨rfl, rfl⟩
  | pinned h hn hv => exact ⟨rfl, rfl⟩

theorem Reaches.package {c : Cache} {l m : Location} (h : c.Reaches l m) : m.pkg = l.pkg ∧ m.path = l.path := by
  induction h with
  | refl => exact ⟨rfl, rfl⟩
  | tail _ h ih =>
    obtain ⟨hpkg, hpath⟩ := h.package
    exact ⟨hpkg.trans ih.1, hpath.trans ih.2⟩

/-- A download or a file that is kept has come to `r` for a key. -/
def Served (c : Cache) (k : String) (r : Except Failure Fetched) : Prop :=
  (∃ (n : Nat) (d : Download), c.downloads[n]? = some d ∧ d.location.key = k ∧ d.outcome = some r) ∨
    ∃ f, c.files.lookup k = some (.known f) ∧ r = .ok f

/-- What a call for `l` may wait for. -/
inductive Expects (c : Cache) (l : Location) : Wait → Prop
  /-- Its first turn. -/
  | turn : Expects c l (.turn l)
  /-- A version that a download finds out. -/
  | version {m : Location} {n : Nat} (hm : c.Reaches l m) (h : Version.isExact m.version = false)
      (hn : c.Resolver n m.pkgVersion) : Expects c l (.version m n)
  /-- A version that a download finds out for a request. -/
  | request {m : Location} {n : Nat} (hm : c.Reaches l m) (h : Version.isExact m.version = false)
      (hn : c.Resolver n m.pkgVersion) : Expects c l (.request m n)
  /-- A download for its key under the versions that are known. -/
  | outcome {m : Location} {n : Nat} {d : Download} (hm : c.Reaches l m) (hd : c.downloads[n]? = some d)
      (hk : d.location.key = m.key) : Expects c l (.outcome n)

/-- The results that a call for `l` may have. -/
inductive Answers (c : Cache) (l : Location) (g : Goal) : Except Failure g.Result → Prop
  /-- What was served for its key under the versions that are known. -/
  | served {m : Location} {r : Except Failure Fetched} (hm : c.Reaches l m) (hr : c.Served m.key r) :
      Answers c l g (g.finish c.base r)
  /-- Its location under a version that is known, if that is all that it is after. -/
  | immediate {m m' : Location} {a : g.Result} (hm : c.Reaches l m) (hm' : c.Resolves m m')
      (ha : g.immediate? m' = some a) : Answers c l g (.ok a)

/-- Where a call for `l` may stand. -/
def Stands (c : Cache) (l : Location) {g : Goal} : Status g → Prop
  | .done r => c.Answers l g r
  | .waiting w => c.Expects l w

section Mono

variable {c c' : Cache} {l m : Location}

theorem Resolves.mono (h : c.Resolves l m) (he : Extends c c') : c'.Resolves l m := by
  cases h with
  | exact h => exact .exact h
  | pinned h hn hv => exact .pinned h (hn.mono he) (he.versionOf? hv)

theorem Reaches.mono (h : c.Reaches l m) (he : Extends c c') : c'.Reaches l m :=
  Relation.ReflTransGen.mono (fun _ _ (h : c.Resolves _ _) => h.mono he) l m h

theorem Served.mono {k : String} {r : Except Failure Fetched} (h : c.Served k r) (he : Extends c c') :
    c'.Served k r := by
  rcases h with ⟨n, d, hd, hk, ho⟩ | ⟨f, hf, rfl⟩
  · obtain ⟨d', hd', hl, -, ho'⟩ := he.downloads n d hd
    exact Or.inl ⟨n, d', hd', by rw [hl, hk], ho' r ho⟩
  · exact Or.inr ⟨f, he.files _ _ hf, rfl⟩

theorem Expects.mono {w : Wait} (h : c.Expects l w) (he : Extends c c') : c'.Expects l w := by
  cases h with
  | turn => exact .turn
  | version hm h hn => exact .version (hm.mono he) h (hn.mono he)
  | request hm h hn => exact .request (hm.mono he) h (hn.mono he)
  | outcome hm hd hk =>
    obtain ⟨d', hd', hl, -⟩ := he.downloads _ _ hd
    exact .outcome (hm.mono he) hd' (by rw [hl, hk])

theorem Stands.mono {g : Goal} {s : Status g} (h : c.Stands l s) (he : Extends c c') : c'.Stands l s := by
  cases s with
  | done r =>
    cases h with
    | served hm hr => rw [← he.base]; exact .served (hm.mono he) (hr.mono he)
    | immediate hm hm' ha => exact .immediate (hm.mono he) (hm'.mono he) ha
  | waiting w => exact Expects.mono h he

end Mono

/-! ## What a call does -/

/-- What a call for `l` comes to in one go: at most one download is started, for a key nothing answers for. -/
structure Goes (c : Cache) (l : Location) {g : Goal} (o : Cache × Status g) : Prop where
  /-- The cache stays, or a download is started. -/
  started : o.1 = c ∨ ∃ (m : Location) (exact : Bool), o.1 = c.startDownload m exact ∧
    c.files.lookup m.key = none ∧ c.Reaches l m ∧
    (exact = false → Version.isExact m.version = false ∧ c.versions.lookup m.pkgVersion = none) ∧
    (exact = true → ∃ m', c.Reaches l m' ∧ c.Resolves m' m)
  /-- The call stands somewhere. -/
  stands : o.1.Stands l o.2

section Calls

variable {c : Cache} {l m : Location} {g : Goal}

theorem Goes.extends {o : Cache × Status g} (h : c.Goes l o) : Extends c o.1 := by
  rcases h.started with he | ⟨m, exact, he, hk, -⟩
  · rw [he]
    exact .refl c
  · rw [he]
    exact .startDownload hk

theorem Goes.sound {o : Cache × Status g} (h : c.Goes l o) (hc : Sound c) : Sound o.1 := by
  rcases h.started with he | ⟨m, exact, he, hk, -, hv, -⟩
  · rw [he]
    exact hc
  · rw [he]
    exact hc.startDownload hk fun h => (hv h).2

theorem version_eq_exact (hc : Sound c) (h : c.version l = .exact m) : c.Resolves l m := by
  unfold version at h
  split at h
  · next he =>
    obtain rfl := Known.exact.inj h
    exact .exact he
  · next he =>
    split at h
    · exact absurd h (by simp)
    · next n hn =>
      split at h
      · next v hv =>
        obtain rfl := Known.exact.inj h
        obtain ⟨d, hd, hs, hr, -⟩ := hc.resolver _ n hn
        exact .pinned (by simpa using he) ⟨d, hd, hs, hr⟩ hv
      · exact absurd h (by simp)

/-- A version is pending while the download in the table is in flight. -/
theorem version_eq_pending (hc : Sound c) {n : Nat} (h : c.version l = .pending n) :
    Version.isExact l.version = false ∧ c.versions.lookup l.pkgVersion = some n ∧
      c.Resolver n l.pkgVersion ∧ c.outcome? n = none := by
  unfold version at h
  split at h
  · exact absurd h (by simp)
  · next he =>
    split at h
    · exact absurd h (by simp)
    · next k hk =>
      split at h
      · exact absurd h (by simp)
      · next hv =>
        obtain rfl := Known.pending.inj h
        obtain ⟨d, hd, hs, hr, ha⟩ := hc.resolver _ k hk
        refine ⟨by simpa using he, hk, ⟨d, hd, hs, hr⟩, ?_⟩
        have hout : c.outcome? k = d.outcome := by simp [outcome?, hd]
        rw [hout]
        rcases ho : d.outcome with _ | e | f
        · rfl
        · exact absurd ho (ha e)
        · obtain ⟨l', hl'⟩ := hc.learned k d f hd hs ho
          simp [versionOf?, hout, ho, hl'] at hv

theorem version_eq_unknown (h : c.version l = .unknown) :
    Version.isExact l.version = false ∧ c.versions.lookup l.pkgVersion = none := by
  unfold version at h
  split at h
  · exact absurd h (by simp)
  · next he =>
    split at h
    · next hn => exact ⟨by simpa using he, hn⟩
    · split at h <;> exact absurd h (by simp)

theorem await_stands {n : Nat} {d : Download} (hm : c.Reaches l m) (hd : c.downloads[n]? = some d)
    (hk : d.location.key = m.key) : c.Stands l (c.await g n) := by
  have hout : c.outcome? n = d.outcome := by simp [outcome?, hd]
  unfold await
  rw [hout]
  cases ho : d.outcome with
  | none => exact Expects.outcome hm hd hk
  | some r => exact Answers.served hm (Or.inl ⟨n, d, hd, hk, ho⟩)

theorem obtain_goes (hc : Sound c) (hm : c.Reaches l m) {exact : Bool}
    (hv : exact = false → Version.isExact m.version = false ∧ c.versions.lookup m.pkgVersion = none)
    (hr : exact = true → ∃ m', c.Reaches l m' ∧ c.Resolves m' m) : c.Goes l (c.obtain g m exact) := by
  unfold obtain
  split
  · next f hf => exact ⟨Or.inl rfl, Answers.served hm (Or.inr ⟨f, hf, rfl⟩)⟩
  · next n hn =>
    obtain ⟨d, hd, hk⟩ := hc.source _ n hn
    exact ⟨Or.inl rfl, await_stands hm hd hk⟩
  · next hn =>
    have hd : (c.startDownload m exact).downloads[c.downloads.length]? = some ⟨m, !exact, none⟩ := by
      rw [getElem?_startDownload, if_pos rfl]
    have hm' : (c.startDownload m exact).Reaches l m := hm.mono (.startDownload hn)
    exact ⟨Or.inr ⟨m, exact, rfl, hn, hm, hv, hr⟩, await_stands hm' hd rfl⟩

theorem request_goes (hc : Sound c) (hm : c.Reaches l m) : c.Goes l (c.request g m) := by
  unfold request
  split
  · next m' h =>
    have hres := version_eq_exact hc h
    exact obtain_goes hc (hm.tail hres) (by simp) fun _ => ⟨m, hm, hres⟩
  · next h => exact obtain_goes hc hm (fun _ => version_eq_unknown h) (by simp)
  · next n h =>
    obtain ⟨he, -, hn, -⟩ := version_eq_pending hc h
    exact ⟨Or.inl rfl, Expects.request hm he hn⟩

theorem settle_goes (hc : Sound c) {m' : Location} (hm : c.Reaches l m) (hm' : c.Resolves m m') :
    c.Goes l (c.settle g m') := by
  unfold settle
  split
  · next a ha => exact ⟨Or.inl rfl, Answers.immediate hm hm' ha⟩
  · exact request_goes hc (hm.tail hm')

theorem start_goes (hc : Sound c) (hm : c.Reaches l m) : c.Goes l (c.start g m) := by
  unfold start
  split
  · split
    · next m' h => exact settle_goes hc hm (version_eq_exact hc h)
    · exact request_goes hc hm
    · next n h =>
      obtain ⟨he, -, hn, -⟩ := version_eq_pending hc h
      exact ⟨Or.inl rfl, Expects.version hm he hn⟩
  · exact request_goes hc hm

/-- What a call does when it goes on. -/
theorem resume_goes (hc : Sound c) {w : Wait} (hw : c.Expects l w) : c.Goes l (c.resume g w) := by
  cases hw with
  | turn => exact start_goes hc .refl
  | @version m n hm h hn =>
    simp only [resume]
    rcases ho : c.outcome? n with _ | r
    · exact ⟨Or.inl rfl, Expects.version hm h hn⟩
    rcases hv : c.versionOf? n with _ | v
    · exact start_goes hc hm
    · exact settle_goes hc hm (.pinned h hn hv)
  | @request m n hm h hn =>
    simp only [resume]
    rcases ho : c.outcome? n with _ | r
    · exact ⟨Or.inl rfl, Expects.request hm h hn⟩
    rcases hv : c.versionOf? n with _ | v
    · exact request_goes hc hm
    · have hres := Resolves.pinned h hn hv
      exact obtain_goes hc (hm.tail hres) (by simp) fun _ => ⟨_, hm, hres⟩
  | outcome hm hd hk => exact ⟨Or.inl rfl, await_stands hm hd hk⟩

end Calls

end BareImports.Cdn.Cache
