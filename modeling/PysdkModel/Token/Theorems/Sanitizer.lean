import PysdkModel.Token.Sanitizer

namespace TokenVersion

variable {v : TokenVersion} {t t₁ t₂ part : Text} {p : Nat}

theorem join_inj {as bs : List Text} (ha : ∀ part ∈ as, v.delimiter ∉ part) (hb : ∀ part ∈ bs, v.delimiter ∉ part)
    (hna : as ≠ []) (hnb : bs ≠ []) : [v.delimiter].intercalate as = [v.delimiter].intercalate bs ↔ as = bs := by
  refine ⟨fun h => ?_, congrArg _⟩
  rw [← List.splitOn_intercalate v.delimiter ha hna, h, List.splitOn_intercalate v.delimiter hb hnb]

def masked (v : TokenVersion) (p : Nat) (t : Text) : List Text :=
  (v.parts t).set p maskString

theorem delimiter_nmem_of_mem_masked (h : part ∈ v.masked p t) : v.delimiter ∉ part := by
  obtain h | rfl := List.mem_or_eq_of_mem_set h
  · exact List.nmem_of_mem_splitOn h
  · exact v.delimiter_nmem

theorem masked_ne_nil : v.masked p t ≠ [] :=
  mt (List.set_eq_nil_iff _ _).mp <| List.splitOn_ne_nil _ _

theorem masked_eq (h : p < (v.parts t).length) :
    v.masked p t = (v.parts t).take p ++ maskString :: (v.parts t).drop (p + 1) := by
  rw [masked, List.set_eq_take_append_cons_drop, if_pos h]

theorem masked_eq_iff (h₁ : p < (v.parts t₁).length) (h₂ : p < (v.parts t₂).length)
    (ht : (v.parts t₁).take p = (v.parts t₂).take p) :
    v.masked p t₁ = v.masked p t₂ ↔ (v.parts t₁).drop (p + 1) = (v.parts t₂).drop (p + 1) := by
  rw [masked_eq h₁, masked_eq h₂, ht, List.append_cancel_left_eq, List.cons.injEq, eq_self, true_and]

end TokenVersion

namespace TokenSanitizer

variable {s : TokenSanitizer} {v : TokenVersion} {t t₁ t₂ : Text} {p : Nat}

theorem ne_nil_of_extract (h : s.extract t = some v) : t ≠ [] := by
  have hp := List.find?_some h
  rintro rfl
  exact v.tokenPrefix_ne <| List.prefix_nil.mp <| List.isPrefixOf_iff_prefix.mp hp

theorem sanitize_of_signed (he : s.extract t = some v) (hp : v.signaturePosition = some p)
    (hl : p < (v.parts t).length) : s.sanitize t = [v.delimiter].intercalate (v.masked p t) := by
  simp only [sanitize, if_neg (ne_nil_of_extract he), he, hp, if_neg (Nat.not_le.mpr hl), TokenVersion.masked]

theorem sanitize_of_noSignature (he : s.extract t = some v) (hp : v.signaturePosition = none) :
    s.sanitize t = v.tokenPrefix ++ maskString := by
  simp only [sanitize, if_neg (ne_nil_of_extract he), he, hp, sanitizeNoSignature]

theorem sanitize_of_concealed (h : s.Concealed t) : s.sanitize t = maskString := by
  obtain ⟨hn, he | ⟨v, p, he, hp, hl⟩⟩ := h
  · simp only [sanitize, if_neg hn, he, sanitizeUnrecognized]
  · simp only [sanitize, if_neg hn, he, hp, if_pos hl, sanitizeUnrecognized]

-- Two tokens that are the same before the signature are sanitized to the same text exactly if they are also the same
-- after it: only the signature itself is masked.
theorem SameBefore.sanitize_eq_iff (h : s.SameBefore v p t₁ t₂) :
    s.sanitize t₁ = s.sanitize t₂ ↔ (v.parts t₁).drop (p + 1) = (v.parts t₂).drop (p + 1) := by
  rw [sanitize_of_signed h.left h.position h.signed₁, sanitize_of_signed h.right h.position h.signed₂,
    TokenVersion.join_inj (fun _ => TokenVersion.delimiter_nmem_of_mem_masked)
      (fun _ => TokenVersion.delimiter_nmem_of_mem_masked) TokenVersion.masked_ne_nil TokenVersion.masked_ne_nil,
    TokenVersion.masked_eq_iff h.signed₁ h.signed₂ h.before]

theorem revealsNothing_iff (s : TokenSanitizer) (t₁ t₂ : Text) : s.RevealsNothing t₁ t₂ ↔ s.SameAfter t₁ t₂ := by
  constructor
  · exact fun h v p hb => hb.sanitize_eq_iff.mp <| h.signature v p hb
  · intro h
    refine ⟨fun v p hb => hb.sanitize_eq_iff.mpr <| h v p hb, ?_, ?_⟩
    · intro v h₁ h₂ hp
      rw [sanitize_of_noSignature h₁ hp, sanitize_of_noSignature h₂ hp]
    · intro h₁ h₂
      rw [sanitize_of_concealed h₁, sanitize_of_concealed h₂]

theorem extraPart_revealed : accessTokenSanitizer.sanitize (.ofString "ne1x.sig.secret") = .ofString "ne1x.**.secret" ∧
    ¬accessTokenSanitizer.RevealsNothing (.ofString "ne1x.sig.secret") (.ofString "ne1x.sig.hidden") := by
  refine ⟨by decide, fun h => ?_⟩
  have hb : accessTokenSanitizer.SameBefore .ne1 1 (.ofString "ne1x.sig.secret") (.ofString "ne1x.sig.hidden") :=
    ⟨rfl, rfl, rfl, by decide, by decide, by decide⟩
  exact absurd (h.signature _ _ hb) (by decide)

end TokenSanitizer
