import BareImports.Proofs.Cdn.Session

/-!
# What is requested from the CDN

* `Session.requests s` : every URL that was requested, in order;
* `files_complete_ok` : a file is kept under the key of its final URL;
* `requests_once` : no URL is requested twice, nor one that a request has led to.
-/

namespace BareImports.Cdn

namespace Cache

theorem urlOf_eq {c : Cache} {d : Download} {k : String} : c.urlOf d = c.base ++ k ↔ d.location.key = k := by
  unfold urlOf
  rw [← String.toList_inj, String.toList_append, String.toList_append, List.append_cancel_left_eq, String.toList_inj]

theorem mem_inFlight {c : Cache} {n : Nat} {url : String} : (n, url) ∈ c.inFlight ↔
    ∃ d, c.downloads[n]? = some d ∧ d.outcome = none ∧ c.urlOf d = url := by
  unfold inFlight
  rw [List.mem_filterMap]
  constructor
  · rintro ⟨⟨d, k⟩, hd, hk⟩
    rw [List.mem_zipIdx_iff_getElem?] at hd
    dsimp only at hd hk
    split at hk
    · next ho =>
      obtain ⟨rfl, rfl⟩ : k = n ∧ c.urlOf d = url := by simpa using hk
      exact ⟨d, hd, by simpa using ho, rfl⟩
    · exact absurd hk (by simp)
  · rintro ⟨d, hd, ho, hu⟩
    exact ⟨(d, n), List.mem_zipIdx_iff_getElem?.2 hd, by simp [ho, hu]⟩

/-- Once a request for a download was answered with status 200 and a final URL in canonical form, something answers
for the key of that URL. -/
theorem files_complete_ok {c : Cache} (h : Sound c) {n : Nat} {d : Download} {r : Response} {l : Location}
    (hd : c.downloads[n]? = some d) (ho : d.outcome = none) (hs : r.status = 200)
    (hl : parseUrl? c.base r.url = some l) (hk : r.url = c.base ++ l.key) :
    ∃ s, (c.complete n (.ok r)).files.lookup l.key = some s := by
  have hj : c.judge d (.ok r) = .ok r.fetched := by
    simp [judge, readUrl, hl, hs, Except.map]
  by_cases hc : (d.resolves || r.fetched.url != c.urlOf d) = true
  · have hcan : c.canonical? d r.fetched = some l := by
      unfold canonical?
      rw [if_pos hc]
      exact hl
    rw [complete_ok hd ho hj, hcan]
    dsimp only
    rw [lookup_remember, if_pos rfl]
    exact Option.isSome_iff_exists.1 (by simp)
  · -- the final URL is the one that was asked for
    have hu : r.url = c.urlOf d := by
      simp only [Bool.or_eq_true, not_or, bne_iff_ne, ne_eq, not_not] at hc
      exact hc.2
    have hkey : d.location.key = l.key := urlOf_eq.1 (hu.symm.trans hk)
    exact ⟨.download n, hkey ▸ Extends.complete.files _ _ (h.requested n d hd)⟩

end Cache

namespace Session

open Cache

/-- Every URL that was requested, in order. -/
def requests (s : Session) : List String := s.cache.downloads.map s.cache.urlOf

theorem length_requests (s : Session) : s.requests.length = s.cache.downloads.length := List.length_map _

theorem Sound.nodup_requests {s : Session} (h : s.Sound) : s.requests.Nodup := by
  unfold requests List.Nodup
  rw [List.pairwise_map, List.pairwise_iff_getElem]
  intro i j hi hj hij heq
  have hsame := h.cache.eq_of_key (List.getElem?_eq_getElem hi) (List.getElem?_eq_getElem hj) (urlOf_eq.1 heq)
  omega

/-- What answers for a key already is not requested by later moves. -/
theorem Sound.not_mem_later {s : Session} (h : s.Sound) {k : String} {x : Source}
    (hk : s.cache.files.lookup k = some x) (moves : List Move) :
    s.cache.base ++ k ∉ (s.play moves).requests.drop s.requests.length := by
  intro hmem
  obtain ⟨i, hi⟩ := List.mem_iff_getElem?.1 hmem
  have hext := h.extends_play moves
  unfold requests at hi
  rw [List.getElem?_drop, List.getElem?_map, Option.map_eq_some_iff, List.length_map] at hi
  obtain ⟨d, hd, hu⟩ := hi
  have hkey : d.location.key = k := urlOf_eq.1 (by rw [hu, hext.base])
  have hreq := (h.play moves).cache.requested _ d hd
  rw [hkey, hext.files k x hk] at hreq
  rw [Option.some.inj hreq] at hk
  obtain ⟨d', hd', -⟩ := h.cache.source k _ hk
  have := lt_of_getElem? hd'
  omega

/-- No URL is requested twice, whatever came of the first request. Once a request was answered with status 200 and a
final URL in canonical form, that URL is not requested by anything that follows. -/
theorem requests_once (url : String) (moves : List Move) : ((empty url).play moves).requests.Nodup ∧
    ∀ (n : Nat) (r : Response) (l : Location) (later : List Move),
      (∃ u, (n, u) ∈ ((empty url).play moves).cache.inFlight) → r.status = 200 →
      parseUrl? (withFinalSlash url) r.url = some l → r.url = withFinalSlash url ++ l.key →
      r.url ∉ ((empty url).play (moves ++ .answer n (.ok r) :: later)).requests.drop
        ((empty url).play moves).requests.length := by
  have hs := sound_play url moves
  have hb := base_play url moves
  refine ⟨hs.nodup_requests, fun n r l later hn h200 hl hk => ?_⟩
  obtain ⟨u, hn⟩ := hn
  obtain ⟨d, hd, ho, -⟩ := mem_inFlight.1 hn
  rw [← hb] at hl hk
  obtain ⟨x, hx⟩ := files_complete_ok hs.cache hd ho h200 hl hk
  have hlen : (((empty url).play moves).step (.answer n (.ok r))).requests.length =
      ((empty url).play moves).requests.length := by
    rw [length_requests, length_requests]
    show ((((empty url).play moves).cache).complete n (.ok r)).downloads.length = _
    rw [length_complete]
  have hnot := (hs.step (.answer n (.ok r))).not_mem_later hx later
  rw [hlen] at hnot
  rw [play_append, play_cons, hk]
  refine fun hmem => hnot ?_
  rwa [show (((empty url).play moves).step (.answer n (.ok r))).cache.base = ((empty url).play moves).cache.base from
    base_complete]

/-- A range that led to an exact version: the file of that version is not requested again. -/
theorem requests_once_redirect :
    "https://c/a@1.0.0/x.js" ∉ ((empty "https://c").play
      ([.call ⟨.file, ⟨"a", "1", "x"⟩⟩, .go 0] ++ .answer 0 (.ok ⟨200, "https://c/a@1.0.0/x.js", "", none⟩) ::
        [.call ⟨.file, ⟨"a", "1.0.0", "x.js"⟩⟩, .go 1])).requests.drop
      ((empty "https://c").play [.call ⟨.file, ⟨"a", "1", "x"⟩⟩, .go 0]).requests.length :=
  (requests_once "https://c" [.call ⟨.file, ⟨"a", "1", "x"⟩⟩, .go 0]).2 0 ⟨200, "https://c/a@1.0.0/x.js", "", none⟩
    ⟨"a", "1.0.0", "x.js"⟩ [.call ⟨.file, ⟨"a", "1.0.0", "x.js"⟩⟩, .go 1]
    ⟨"https://c/a@1/x", by decide +kernel⟩ rfl (by decide +kernel) (by decide +kernel)

end Session

end BareImports.Cdn
