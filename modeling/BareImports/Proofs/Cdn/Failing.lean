import BareImports.Proofs.Cdn.Progress
import Mathlib.Data.List.Induction

/-!
# Failures stay with those who asked

* `told_play` : what a download has come to is what the answer to its request makes of it;
* `Raises moves c g m e` : the failure `e` of a call comes from a request for the location `m`, or from a manifest that is
  kept under its own URL;
* `Sound.unregistered` : a range whose resolutions have all failed is not in the table;
* `Wait.download?`, `Sound.awaited` : the download that a call waits for is in flight, or the call can go on;
* `failures_local` : no call fails by a request for another path, and none waits for what will never come;
* `kept_manifest` : a manifest that another request has led to makes a call for it fail.
-/

namespace BareImports.Cdn

/-- The download that a call waits for. -/
def Wait.download? : Wait → Option Nat
  | .turn _ => none
  | .version _ n | .request _ n | .outcome n => some n

theorem Goal.finish_error (base : String) (g : Goal) (e : Failure) : g.finish base (.error e) = .error e := by
  cases g <;> rfl

/-- A file that could be fetched and whose URL can be read makes a call fail only if it is to be a manifest. -/
theorem Goal.finish_ok_eq_error {base : String} {g : Goal} {f : Fetched} {l : Location} {e : Failure}
    (hl : parseUrl? base f.url = some l) (h : g.finish base (.ok f) = .error e) : g = .manifest ∧ readManifest f = .error e := by
  cases g with
  | file => exact absurd h (by simp [Goal.finish, Except.map])
  | location => exact absurd h (by simp [Goal.finish, Except.bind, readUrl, hl])
  | manifest => exact ⟨rfl, h⟩

namespace Cache

variable {c : Cache} {l : Location} {w : Wait} {g : Goal}

/-- While none of the resolutions of a range is in flight or has succeeded, the range is not in the table. -/
theorem Sound.unregistered (h : c.Sound) {n : Nat} {d : Download} {e : Failure} (hd : c.downloads[n]? = some d)
    (hs : d.resolves = true) (ho : d.outcome = some (.error e))
    (hlater : ∀ (k : Nat) (d' : Download), n < k → c.downloads[k]? = some d' → d'.resolves = true →
      d'.location.pkgVersion = d.location.pkgVersion → ∃ e', d'.outcome = some (.error e')) :
    c.versions.lookup d.location.pkgVersion = none := by
  by_contra hne
  obtain ⟨k, hk⟩ := Option.ne_none_iff_exists'.1 hne
  obtain ⟨d', hd', hs', hr', halive⟩ := h.resolver _ k hk
  rcases Nat.lt_or_eq_of_le (h.youngest _ n k ⟨d, hd, hs, rfl⟩ hk) with hlt | rfl
  · obtain ⟨e', ho'⟩ := hlater k d' hlt hd' hs' hr'
    exact halive e' ho'
  · obtain rfl := Option.some.inj (hd.symm.trans hd')
    exact halive e ho

/-- A range in the table whose version is not known belongs to a download in flight. -/
theorem Sound.owned (h : c.Sound) {range : String} {n : Nat} (hn : c.versions.lookup range = some n)
    (hv : c.versionOf? n = none) : ∃ d, c.downloads[n]? = some d ∧ d.resolves = true ∧
      d.location.pkgVersion = range ∧ (n, c.urlOf d) ∈ c.inFlight := by
  obtain ⟨d, hd, hs, hr, halive⟩ := h.resolver range n hn
  refine ⟨d, hd, hs, hr, mem_inFlight.2 ⟨d, hd, ?_, rfl⟩⟩
  have hout : c.outcome? n = d.outcome := by simp [outcome?, hd]
  rcases ho : d.outcome with _ | e | f
  · rfl
  · exact absurd ho (halive e)
  · obtain ⟨l, hl⟩ := h.learned n d f hd hs ho
    simp [versionOf?, hout, ho, hl] at hv

/-- A call that waits can go on, or the download that it waits for is in flight. -/
theorem Expects.ready_or (hw : c.Expects l w) :
    c.ready w = 1 ∨ ∃ n url, w.download? = some n ∧ (n, url) ∈ c.inFlight := by
  have hflight : ∀ (n : Nat) (d : Download), c.downloads[n]? = some d →
      (c.outcome? n).isSome.toNat = 1 ∨ ∃ url, (n, url) ∈ c.inFlight := by
    intro n d hd
    rcases ho : d.outcome with _ | r
    · exact Or.inr ⟨_, mem_inFlight.2 ⟨d, hd, ho, rfl⟩⟩
    · exact Or.inl (by simp [outcome?, hd, ho])
  cases hw with
  | turn => exact Or.inl rfl
  | @version m n hm h hn =>
    obtain ⟨d, hd, -⟩ := hn
    exact (hflight n d hd).imp_right fun hu => ⟨n, hu.choose, rfl, hu.choose_spec⟩
  | @request m n hm h hn =>
    obtain ⟨d, hd, -⟩ := hn
    exact (hflight n d hd).imp_right fun hu => ⟨n, hu.choose, rfl, hu.choose_spec⟩
  | @outcome m n d hm hd hk => exact (hflight n d hd).imp_right fun hu => ⟨n, hu.choose, rfl, hu.choose_spec⟩

/-- A call that can go on does. -/
theorem resume_ne (hc : c.Sound) (hr : c.ready w = 1) : c.resume g w ≠ (c, .waiting w) := by
  intro h
  have hadv := resume_advances (g := g) hc w
  rw [h] at hadv
  cases hadv with
  | finds h => exact absurd h (Nat.lt_irrefl _)
  | turns he hr => exact absurd hr (Nat.lt_irrefl _)
  | stays h => rw [hr] at h; exact absurd h (by simp)

end Cache

namespace Session

open Cache

/-- Download `n` was asked for the URL of location `m`, and `a` is the answer. -/
structure Asks (moves : List Move) (c : Cache) (m : Location) (d : Download) (a : Answer) : Prop where
  /-- The URL is that of the location. -/
  url : c.urlOf d = c.base ++ m.key
  /-- The answer was given to its request. -/
  answer : ∃ n, c.downloads[n]? = some d ∧ .answer n a ∈ moves

/-- Where the failure of a call comes from that asks for location `m`. -/
inductive Raises (moves : List Move) (c : Cache) (g : Goal) (m : Location) (e : Failure) : Prop
  /-- The request for the location has failed. -/
  | request {d : Download} {a : Answer} (h : Asks moves c m d a) (he : c.judge d a = .error e)
  /-- The file that the request for the location has brought is not what the call is after. -/
  | content {d : Download} {a : Answer} {f : Fetched} (h : Asks moves c m d a) (hf : c.judge d a = .ok f)
      (he : g.finish c.base (.ok f) = .error e)
  /-- A manifest was not requested, but another request has led to it: that is none. -/
  | kept {n : Nat} {f : Fetched} {k : Location} (hg : g = .manifest) (hnone : ∀ d ∈ c.downloads, c.urlOf d ≠ c.base ++ m.key)
      (hf : c.outcome? n = some (.ok f)) (hk : parseUrl? c.base f.url = some k) (hkey : k.key = m.key)
      (he : readManifest f = .error e)

/-- What a download has come to is what the answer to its request makes of it. -/
theorem told_play (url : String) (moves : List Move) {n : Nat} {d : Download} {r : Except Failure Fetched}
    (hd : ((empty url).play moves).cache.downloads[n]? = some d) (ho : d.outcome = some r) :
    ∃ a, .answer n a ∈ moves ∧ ((empty url).play moves).cache.judge d a = r := by
  induction moves using List.reverseRecOn generalizing d with
  | nil => exact absurd hd (by simp [empty, Cache.empty])
  | append_singleton moves m ih =>
    have hkeep : ((empty url).play moves).cache.downloads[n]? = some d →
        ∃ a, .answer n a ∈ moves ++ [m] ∧ ((empty url).play (moves ++ [m])).cache.judge d a = r := fun hd => by
      obtain ⟨a, ha, hr⟩ := ih hd ho
      refine ⟨a, List.mem_append_left _ ha, ?_⟩
      unfold judge at hr ⊢
      rwa [base_play] at hr ⊢
    have hs := sound_play url moves
    have hstep := step_cases hs m
    have hplay : (empty url).play (moves ++ [m]) = ((empty url).play moves).step m := by
      rw [play_append, play_cons, play_nil]
    rw [hplay] at hd
    generalize ((empty url).play moves).step m = s' at hd hstep
    cases hstep with
    | call c => exact hkeep hd
    | rest => exact hkeep hd
    | go hk hgo =>
      rcases hgo.started with he | ⟨l, exact, he, -⟩
      · rw [he] at hd
        exact hkeep hd
      · rw [he, getElem?_startDownload] at hd
        split at hd
        · rw [← Option.some.inj hd] at ho
          exact absurd ho (by simp)
        · exact hkeep hd
    | answer k a =>
      by_cases hflight : ∃ e, ((empty url).play moves).cache.downloads[k]? = some e ∧ e.outcome = none
      · obtain ⟨e, he, heo⟩ := hflight
        dsimp only at hd
        rw [getElem?_complete he heo] at hd
        split at hd
        · next hn =>
          subst hn
          obtain rfl := Option.some.inj hd
          refine ⟨a, by simp, ?_⟩
          obtain rfl := Option.some.inj ho
          unfold judge
          rw [base_play, base_play]
        · exact hkeep hd
      · dsimp only at hd
        rw [complete_eq_self fun e he heo => hflight ⟨e, he, heo⟩] at hd
        exact hkeep hd

/-- The failure of a call comes from a request for its path, or from a manifest that is kept under its own URL. -/
theorem raises_of_answers {url : String} {moves : List Move} {l : Location} {g : Goal} {e : Failure}
    (h : ((empty url).play moves).cache.Answers l g (.error e)) :
    ∃ m, ((empty url).play moves).cache.Reaches l m ∧ Raises moves ((empty url).play moves).cache g m e := by
  have hs := sound_play url moves
  generalize hr : Except.error e = r at h
  cases h with
  | immediate => exact absurd hr (by simp)
  | @served m r hm hserved =>
    refine ⟨m, hm, ?_⟩
    rcases hserved with ⟨n, d, hd, hk, ho⟩ | ⟨f, hf, rfl⟩
    · obtain ⟨a, ha, hj⟩ := told_play url moves hd ho
      have hasks : Asks moves ((empty url).play moves).cache m d a := ⟨urlOf_eq.2 hk, n, hd, ha⟩
      cases r with
      | error e' =>
        rw [Goal.finish_error] at hr
        exact .request hasks (Except.error.inj hr ▸ hj)
      | ok f => exact .content hasks hj hr.symm
    · obtain ⟨⟨k, hk, hkey⟩, n, hn⟩ := hs.cache.known _ f hf
      obtain ⟨hg, he⟩ := Goal.finish_ok_eq_error hk hr.symm
      refine .kept hg (fun d hd hu => ?_) hn hk hkey he
      obtain ⟨i, hi⟩ := List.mem_iff_getElem?.1 hd
      have hreq := hs.cache.requested i d hi
      rw [urlOf_eq.1 hu, hf] at hreq
      exact absurd hreq (by simp)

/-- Whatever is answered and in whatever order calls go on: the failure of a call comes from a request for its own path,
under its version or one that was found out for it, or from a manifest that another request has led to under the URL of
that manifest. A range whose last resolution has failed is not in the table. One in the table whose version is not known
belongs to a request in flight, and a call that has no result can go on, or waits for a request in flight. -/
theorem failures_local (url : String) (moves : List Move) :
    (∀ slot ∈ ((empty url).play moves).slots, ∀ e, slot.status = .done (.error e) →
      ∃ m, ((empty url).play moves).cache.Reaches slot.call.location m ∧ m.pkg = slot.call.location.pkg ∧
        m.path = slot.call.location.path ∧ Raises moves ((empty url).play moves).cache slot.call.goal m e) ∧
    (∀ (n : Nat) (d : Download) (e : Failure), ((empty url).play moves).cache.downloads[n]? = some d →
      d.resolves = true → d.outcome = some (.error e) →
      (∀ (k : Nat) (d' : Download), n < k → ((empty url).play moves).cache.downloads[k]? = some d' →
        d'.resolves = true → d'.location.pkgVersion = d.location.pkgVersion → ∃ e', d'.outcome = some (.error e')) →
      ((empty url).play moves).cache.versions.lookup d.location.pkgVersion = none) ∧
    (∀ (range : String) (n : Nat), ((empty url).play moves).cache.versions.lookup range = some n →
      ((empty url).play moves).cache.versionOf? n = none →
      ∃ d, ((empty url).play moves).cache.downloads[n]? = some d ∧ d.resolves = true ∧ d.location.pkgVersion = range ∧
        (n, ((empty url).play moves).cache.urlOf d) ∈ ((empty url).play moves).cache.inFlight) ∧
    ∀ (k : Nat) (call : Call) (w : Wait), ((empty url).play moves).slots[k]? = some ⟨call, .waiting w⟩ →
      ((empty url).play moves).cache.resume call.goal w ≠ (((empty url).play moves).cache, .waiting w) ∨
        ∃ n u, w.download? = some n ∧ (n, u) ∈ ((empty url).play moves).cache.inFlight := by
  have hs := sound_play url moves
  refine ⟨fun slot hslot e he => ?_, fun n d e hd hr ho hlater => hs.cache.unregistered hd hr ho hlater,
    fun range n hn hv => hs.cache.owned hn hv, fun k call w hk => ?_⟩
  · have hstands := hs.stands slot hslot
    rw [he] at hstands
    obtain ⟨m, hm, hraises⟩ := raises_of_answers hstands
    exact ⟨m, hm, hm.package.1, hm.package.2, hraises⟩
  · have hw : ((empty url).play moves).cache.Expects call.location w := hs.stands _ (List.mem_of_getElem? hk)
    exact hw.ready_or.imp_left fun hr => resume_ne hs.cache hr

/-- Two paths of one range are asked for: the second call waits for the first one's request, and then makes its own. -/
def failingMoves : List Move :=
  [.call ⟨.file, ⟨"a", "1", "x"⟩⟩, .call ⟨.file, ⟨"a", "1", "y"⟩⟩, .go 0, .go 1, .answer 0 (.error (.refused 404 "x")),
    .go 1, .answer 1 (.error (.refused 500 "y")), .go 1]

/-- The second call fails by its own request, and the range is open again. -/
theorem failures_local_shared :
    (∃ m, m.path = "y" ∧ Raises failingMoves ((empty "https://c").play failingMoves).cache .file m (.refused 500 "y")) ∧
    ((empty "https://c").play failingMoves).cache.versions.lookup "a@1" = none := by
  have hlocal := failures_local "https://c" failingMoves
  have hslot : ((empty "https://c").play failingMoves).slots[1]? =
    some ⟨⟨.file, ⟨"a", "1", "y"⟩⟩, .done (.error (.refused 500 "y"))⟩ := rfl
  have hlast : ((empty "https://c").play failingMoves).cache.downloads[1]? =
    some ⟨⟨"a", "1", "y"⟩, true, some (.error (.refused 500 "y"))⟩ := rfl
  obtain ⟨m, -, -, hpath, hraises⟩ := hlocal.1 _ (List.mem_of_getElem? hslot) _ rfl
  refine ⟨⟨m, hpath, hraises⟩, hlocal.2.1 1 _ _ hlast rfl rfl fun k d' hk hd' => ?_⟩
  have hlen : ((empty "https://c").play failingMoves).cache.downloads.length = 2 := rfl
  have := lt_of_getElem? hd'
  omega

/-- One request leads to the manifest of a package, which is then asked for. -/
def keptMoves : List Move :=
  [.call ⟨.file, ⟨"a", "1", "x"⟩⟩, .go 0, .answer 0 (.ok ⟨200, "https://c/a@1.0.0/package.json", "junk", none⟩),
    .call ⟨.manifest, ⟨"a", "1.0.0", "package.json"⟩⟩, .go 1]

/-- The call for the manifest fails, although no request was made for its path. -/
theorem kept_manifest : ∃ slot ∈ ((empty "https://c").play keptMoves).slots,
    slot.call = ⟨.manifest, ⟨"a", "1.0.0", "package.json"⟩⟩ ∧ (∃ r, slot.result? = some r ∧ r.result.toBool = false) ∧
    ∀ d ∈ ((empty "https://c").play keptMoves).cache.downloads, d.location.path ≠ "package.json" := by
  have hcall : (((empty "https://c").play keptMoves).slots[1]?).map Slot.call =
    some ⟨.manifest, ⟨"a", "1.0.0", "package.json"⟩⟩ := rfl
  have hres : ((((empty "https://c").play keptMoves).slots[1]?).bind Slot.result?).map (·.result.toBool) =
    some false := by decide +kernel
  obtain ⟨slot, hslot, hcall⟩ := Option.map_eq_some_iff.1 hcall
  rw [hslot, Option.bind_some, Option.map_eq_some_iff] at hres
  exact ⟨slot, List.mem_of_getElem? hslot, hcall, hres, by decide +kernel⟩

end Session

end BareImports.Cdn
