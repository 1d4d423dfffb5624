import Aetheris.Image

/-!
# Alpha compositing

`Color::blend_over` of `rendering/color.cpp`, with the products and quotients of `unsigned int`,
none of which is as large as `2 ^ 24`.

The resulting alpha is rounded, and so is the share of the destination in every channel, but not to
the same number: the alpha takes `d * (255 - s) / 255` to the nearest integer, and the channel
multiplies the number that has not been rounded.  What the two differ by is a rounding error of the
product of the alphas, times the channel.  It does no harm as long as it is small next to the
resulting alpha, which it is divided by in the end.  For which pairs of alphas it is small enough
does not depend on the channels, since the error is the largest for white over white
(`blend_in_range_iff`).
-/

namespace Aetheris.Paint

/-- The share of the destination in `out_alpha`, which is rounded. -/
def alphaShare (sourceAlpha destinationAlpha : ℕ) : ℕ :=
  (destinationAlpha * (255 - sourceAlpha) + 127) / 255

/-- `out_alpha`. -/
def outAlpha (sourceAlpha destinationAlpha : ℕ) : ℕ :=
  sourceAlpha + alphaShare sourceAlpha destinationAlpha

/-- The quotient of `blend_channel`, before it is cast to a byte. -/
def channelQuotient (sourceAlpha destinationAlpha sourceChannel destinationChannel : ℕ) : ℕ :=
  let sourcePremultiplied := sourceChannel * sourceAlpha
  let destinationPremultiplied := destinationChannel * destinationAlpha * (255 - sourceAlpha) / 255
  (sourcePremultiplied + destinationPremultiplied + outAlpha sourceAlpha destinationAlpha / 2) /
    outAlpha sourceAlpha destinationAlpha

/-- `Color::blend_over`. -/
def blendOver (source destination : Color) : Color :=
  let sourceAlpha := source.alpha.toNat
  let destinationAlpha := destination.alpha.toNat
  if outAlpha sourceAlpha destinationAlpha = 0 then ⟨0, 0, 0, 0⟩
  else
    let blendChannel (sourceChannel destinationChannel : Byte) : Byte :=
      UInt8.ofNat (channelQuotient sourceAlpha destinationAlpha sourceChannel.toNat
        destinationChannel.toNat)
    { red := blendChannel source.red destination.red
      green := blendChannel source.green destination.green
      blue := blendChannel source.blue destination.blue
      alpha := UInt8.ofNat (outAlpha sourceAlpha destinationAlpha) }

/-- The channels of a colour besides its alpha. -/
inductive Channel where
  | red
  | green
  | blue
  deriving DecidableEq, Repr

/-- The value of a channel. -/
def Channel.of : Channel → Color → ℕ
  | .red, color => color.red.toNat
  | .green, color => color.green.toNat
  | .blue, color => color.blue.toNat

theorem Channel.of_le (channel : Channel) (color : Color) : channel.of color ≤ 255 := by
  cases channel <;> exact Nat.le_of_lt_succ (UInt8.toNat_lt _)

/-- The quotient that `blend_over` computes for a channel. -/
def quotient (channel : Channel) (source destination : Color) : ℕ :=
  channelQuotient source.alpha.toNat destination.alpha.toNat (channel.of source)
    (channel.of destination)

/-- The result is a colour between the two colours, up to one, with no less alpha. -/
structure BlendInRange (source destination : Color) : Prop where
  cast : ∀ channel, outAlpha source.alpha.toNat destination.alpha.toNat ≠ 0 →
    quotient channel source destination ≤ 255
  lower : ∀ channel : Channel, min (channel.of source) (channel.of destination) ≤
    channel.of (blendOver source destination) + 1
  upper : ∀ channel : Channel, channel.of (blendOver source destination) ≤
    max (channel.of source) (channel.of destination) + 1
  sourceAlpha : source.alpha.toNat ≤ (blendOver source destination).alpha.toNat
  destinationAlpha : destination.alpha.toNat ≤ (blendOver source destination).alpha.toNat + 1

/-! ## The alpha -/

section Alpha

variable {s d : ℕ}

theorem outAlpha_le (hs : s ≤ 255) (hd : d ≤ 255) : outAlpha s d ≤ 255 := by
  have hproduct : d * (255 - s) ≤ 255 * (255 - s) := Nat.mul_le_mul_right _ hd
  have hshare : alphaShare s d ≤ 255 - s := by
    rw [alphaShare, Nat.div_le_iff_le_mul_add_pred (by decide)]
    omega
  rw [outAlpha]
  omega

theorem le_outAlpha (hs : s ≤ 255) (hd : d ≤ 255) : d ≤ outAlpha s d := by
  have hproduct : d * (255 - s) + d * s = d * 255 := by rw [← Nat.mul_add, Nat.sub_add_cancel hs]
  have hsquare : d * s ≤ 255 * s := Nat.mul_le_mul_right _ hd
  have hshare : d - s ≤ alphaShare s d := by
    rw [alphaShare, Nat.le_div_iff_mul_le (by decide), Nat.sub_mul]
    omega
  rw [outAlpha]
  omega

theorem outAlpha_eq_zero_iff (hs : s ≤ 255) (hd : d ≤ 255) : outAlpha s d = 0 ↔ s = 0 ∧ d = 0 := by
  constructor
  · intro h
    exact ⟨Nat.eq_zero_of_le_zero (h ▸ Nat.le_add_right _ _),
      Nat.eq_zero_of_le_zero (h ▸ le_outAlpha hs hd)⟩
  · rintro ⟨rfl, rfl⟩
    rfl

end Alpha

/-! ## The channels -/

/-- The product of two alphas, divided by 255 and taken to the nearest integer. -/
def roundedProduct (s d : ℕ) : ℕ := (s * d + 127) / 255

/-- The rounding error of the product of the alphas is small next to `s + d` less the rounded
product: less than half of it if the product is rounded up, and at most three halves of it if the
product is rounded down. -/
def AlphasFit (s d : ℕ) : Prop :=
  2 * (255 * roundedProduct s d - s * d : ℤ) < s + d - roundedProduct s d ∧
    2 * (s * d - 255 * roundedProduct s d : ℤ) ≤ 3 * (s + d - roundedProduct s d)

instance (s d : ℕ) : Decidable (AlphasFit s d) := inferInstanceAs (Decidable (_ ∧ _))

section Channels

variable {s d a b : ℕ}

/-- The share of the destination is what the rounded product leaves of its alpha. -/
theorem alphaShare_add (hs : s ≤ 255) : alphaShare s d + roundedProduct s d = d := by
  have hproduct : d * (255 - s) + s * d = d * 255 := by
    rw [Nat.mul_comm s, ← Nat.mul_add, Nat.sub_add_cancel hs]
  rw [alphaShare, roundedProduct]
  omega

/-- The resulting alpha. -/
theorem outAlpha_add (hs : s ≤ 255) : outAlpha s d + roundedProduct s d = s + d := by
  rw [outAlpha, Nat.add_assoc, alphaShare_add hs]

/-- The premultiplied destination is the channel in its share of the alpha, and the error in the
channel. -/
theorem premultiplied_eq (hs : s ≤ 255) :
    ((b * d * (255 - s) / 255 : ℕ) : ℤ) =
      b * alphaShare s d + b * (255 * roundedProduct s d - s * d : ℤ) / 255 := by
  have hshare : (d : ℤ) = alphaShare s d + roundedProduct s d := by
    exact_mod_cast (alphaShare_add (d := d) hs).symm
  have hsum : ((b * d * (255 - s) : ℕ) : ℤ) =
      b * (255 * roundedProduct s d - s * d) + b * alphaShare s d * 255 := by
    push_cast [hs]
    linear_combination (255 : ℤ) * b * hshare
  rw [Int.natCast_div, hsum, Nat.cast_ofNat, Int.add_mul_ediv_right _ _ (by decide), add_comm]

/-- The error in a channel is not larger than the one in white. -/
theorem error_le (hb : b ≤ 255) (error : ℤ) :
    min error 0 ≤ b * error / 255 ∧ b * error / 255 ≤ max error 0 := by
  have hb' : (b : ℤ) ≤ 255 := by exact_mod_cast hb
  refine ⟨(Int.le_ediv_iff_mul_le (by decide)).mpr ?_,
    Int.le_of_lt_add_one ((Int.ediv_lt_iff_lt_mul (by decide)).mpr ?_)⟩
  · rcases le_total 0 error with herror | herror
    · rw [min_eq_right herror, zero_mul]
      positivity
    · rw [min_eq_left herror]
      nlinarith
  · rcases le_total 0 error with herror | herror
    · rw [max_eq_left herror]
      nlinarith
    · rw [max_eq_right herror]
      nlinarith

/-- **One channel**, if the alphas fit. -/
theorem channel_in_range (hs : s ≤ 255) (hfit : AlphasFit s d) (hb : b ≤ 255) :
    channelQuotient s d a b ≤ max a b ∧ min a b ≤ channelQuotient s d a b + 1 := by
  have hout : (outAlpha s d : ℤ) + roundedProduct s d = s + d := by
    exact_mod_cast outAlpha_add (d := d) hs
  have hshare : outAlpha s d = s + alphaShare s d := rfl
  obtain ⟨hup, hdown⟩ := hfit
  obtain ⟨hlow, hhigh⟩ := error_le hb (255 * roundedProduct s d - s * d)
  have hpremultiplied := premultiplied_eq (b := b) (d := d) hs
  rw [channelQuotient]
  generalize b * d * (255 - s) / 255 = premultiplied at hpremultiplied ⊢
  generalize (b : ℤ) * (255 * roundedProduct s d - s * d) / 255 = error at hlow hhigh hpremultiplied
  generalize (roundedProduct s d : ℤ) = product at *
  generalize (s * d : ℤ) = exact at *
  have hpos : 0 < outAlpha s d := by omega
  constructor
  · refine Nat.le_of_lt_succ ((Nat.div_lt_iff_lt_mul hpos).mpr ?_)
    have hmost : a * s + b * alphaShare s d ≤ max a b * outAlpha s d := by
      rw [hshare, Nat.mul_add]
      exact Nat.add_le_add (Nat.mul_le_mul_right _ (le_max_left _ _))
        (Nat.mul_le_mul_right _ (le_max_right _ _))
    rw [Nat.succ_mul]
    zify at hmost ⊢
    omega
  · rw [← Nat.add_div_right _ hpos, Nat.le_div_iff_mul_le hpos]
    have hleast : min a b * outAlpha s d ≤ a * s + b * alphaShare s d := by
      rw [hshare, Nat.mul_add]
      exact Nat.add_le_add (Nat.mul_le_mul_right _ (min_le_left _ _))
        (Nat.mul_le_mul_right _ (min_le_right _ _))
    zify at hleast ⊢
    omega

/-- White over white, if it stays in range. -/
theorem alphasFit_of_white (hs : s ≤ 255) (hpos : 0 < outAlpha s d)
    (hcast : channelQuotient s d 255 255 ≤ 255) (hlower : 255 ≤ channelQuotient s d 255 255 + 1) :
    AlphasFit s d := by
  have hout : (outAlpha s d : ℤ) + roundedProduct s d = s + d := by
    exact_mod_cast outAlpha_add (d := d) hs
  have hshare : outAlpha s d = s + alphaShare s d := rfl
  have hpremultiplied := premultiplied_eq (b := 255) (d := d) hs
  rw [Nat.cast_ofNat, Int.mul_ediv_cancel_left _ (by decide)] at hpremultiplied
  rw [channelQuotient] at hcast hlower
  generalize 255 * d * (255 - s) / 255 = premultiplied at *
  have hcast' := (Nat.div_lt_iff_lt_mul hpos).mp (Nat.lt_succ_of_le hcast)
  rw [← Nat.add_div_right _ hpos, Nat.le_div_iff_mul_le hpos] at hlower
  rw [AlphasFit]
  generalize (s * d : ℤ) = exact at *
  omega

end Channels

/-! ## Colours -/

theorem of_blendOver (channel : Channel) {source destination : Color}
    (hpos : outAlpha source.alpha.toNat destination.alpha.toNat ≠ 0) :
    channel.of (blendOver source destination) = quotient channel source destination % 256 := by
  rw [blendOver]
  dsimp only
  rw [if_neg hpos]
  cases channel <;> exact UInt8.toNat_ofNat'

theorem alpha_blendOver (source destination : Color) :
    (blendOver source destination).alpha.toNat =
      outAlpha source.alpha.toNat destination.alpha.toNat := by
  have hle := outAlpha_le (Nat.le_of_lt_succ (UInt8.toNat_lt source.alpha))
    (Nat.le_of_lt_succ (UInt8.toNat_lt destination.alpha))
  rw [blendOver]
  dsimp only
  split
  next h => rw [h]; rfl
  next => exact UInt8.toNat_ofNat_of_lt (Nat.lt_succ_of_le hle)

/-- Two colours whose alphas fit. -/
theorem blendInRange_of_alphasFit {source destination : Color}
    (hfit : AlphasFit source.alpha.toNat destination.alpha.toNat) :
    BlendInRange source destination := by
  have hs := Nat.le_of_lt_succ (UInt8.toNat_lt source.alpha)
  have hd := Nat.le_of_lt_succ (UInt8.toNat_lt destination.alpha)
  have halpha := alpha_blendOver source destination
  have hpos : outAlpha source.alpha.toNat destination.alpha.toNat ≠ 0 := by
    intro hzero
    obtain ⟨hsource, hdestination⟩ := (outAlpha_eq_zero_iff hs hd).mp hzero
    rw [hsource, hdestination] at hfit
    exact absurd hfit (by decide)
  have hchannel (channel : Channel) := channel_in_range (a := channel.of source) hs hfit
    (channel.of_le destination)
  have hcast (channel : Channel) : quotient channel source destination ≤ 255 :=
    (hchannel channel).1.trans (max_le (channel.of_le source) (channel.of_le destination))
  have hof (channel : Channel) :
      channel.of (blendOver source destination) = quotient channel source destination := by
    rw [of_blendOver channel hpos, Nat.mod_eq_of_lt (Nat.lt_succ_of_le (hcast channel))]
  refine ⟨fun channel _ => hcast channel, fun channel => ?_, fun channel => ?_, ?_, ?_⟩
  · rw [hof]
    exact (hchannel channel).2
  · rw [hof]
    exact (hchannel channel).1.trans (Nat.le_succ _)
  · rw [halpha]
    exact Nat.le_add_right _ _
  · rw [halpha]
    exact (le_outAlpha hs hd).trans (Nat.le_succ _)

/-- **Exactly for which alphas blending stays in range**, whatever the channels: the rounding error of
the product of the alphas is small next to what the rounded product leaves of their sum. -/
theorem blend_in_range_iff (sourceAlpha destinationAlpha : Byte) :
    (∀ source destination : Color, source.alpha = sourceAlpha →
      destination.alpha = destinationAlpha → BlendInRange source destination) ↔
        AlphasFit sourceAlpha.toNat destinationAlpha.toNat := by
  constructor
  · intro h
    have hs := Nat.le_of_lt_succ (UInt8.toNat_lt sourceAlpha)
    have hd := Nat.le_of_lt_succ (UInt8.toNat_lt destinationAlpha)
    have hwhite := h ⟨255, 255, 255, sourceAlpha⟩ ⟨255, 255, 255, destinationAlpha⟩ rfl rfl
    by_cases hzero : outAlpha sourceAlpha.toNat destinationAlpha.toNat = 0
    · -- nothing is visible, and white has become black
      have hlower := hwhite.lower .red
      rw [blendOver, if_pos hzero] at hlower
      have hblack : 255 ≤ 0 + 1 := hlower
      exact absurd hblack (by decide)
    · have hcast : channelQuotient sourceAlpha.toNat destinationAlpha.toNat 255 255 ≤ 255 :=
        hwhite.cast .red hzero
      have hlower : 255 ≤ channelQuotient sourceAlpha.toNat destinationAlpha.toNat 255 255 % 256 + 1 :=
        @of_blendOver .red ⟨255, 255, 255, sourceAlpha⟩ ⟨255, 255, 255, destinationAlpha⟩ hzero ▸
          hwhite.lower .red
      rw [Nat.mod_eq_of_lt (Nat.lt_succ_of_le hcast)] at hlower
      exact alphasFit_of_white hs (Nat.pos_of_ne_zero hzero) hcast hlower
  · rintro h source destination rfl rfl
    exact blendInRange_of_alphasFit h

/-- White with an alpha of 254 over white with an alpha of 127: the quotient is 256, which is cast
to black. -/
theorem not_forall_blendInRange : ¬∀ source destination : Color, BlendInRange source destination := by
  intro h
  have hcast := (h ⟨255, 255, 255, 254⟩ ⟨255, 255, 255, 127⟩).cast .red (by decide)
  exact absurd hcast (by decide)

end Aetheris.Paint
