import Mathlib
import Lebirun.Lib.Lucas
import Lebirun.Tls.P256Field

namespace Lebirun.Tls.P256
open Limbs
set_option autoImplicit true

/-- `p256_n` -/
def p256N : Field :=
  [0xFC632551, 0xF3B9CAC2, 0xA7179E84, 0xBCE6FAAD, 0xFFFFFFFF, 0xFFFFFFFF, 0x00000000, 0xFFFFFFFF]

/-- The order of the base point. -/
abbrev n : Nat := 0xFFFFFFFF00000000FFFFFFFFFFFFFFFFBCE6FAADA7179E84F3B9CAC2FC632551

/-- `n` and `p`, and the primes that their proofs rest on. -/
def primes : List Lucas.Entry :=
  [⟨115792089210356248762697446949407573529996955224135760342422259061068512044369, 7, [2, 2, 2, 2, 3, 71, 131, 373,
      3407, 17449, 38189, 187019741, 622491383, 1002328039319, 2624747550333869278416773953]⟩,
    ⟨2624747550333869278416773953, 7, [2, 2, 2, 2, 2, 2, 3, 3, 1297, 16879, 208150935158385979]⟩,
    ⟨208150935158385979, 2, [2, 3, 11, 43, 127, 3023, 191039911]⟩,
    ⟨191039911, 3, [2, 3, 5, 41, 155317]⟩,
    ⟨155317, 5, [2, 2, 3, 7, 43, 43]⟩,
    ⟨3023, 5, [2, 1511]⟩,
    ⟨1511, 11, [2, 5, 151]⟩,
    ⟨16879, 3, [2, 3, 29, 97]⟩,
    ⟨1297, 10, [2, 2, 2, 2, 3, 3, 3, 3]⟩,
    ⟨1002328039319, 19, [2, 126241, 3969899]⟩,
    ⟨3969899, 2, [2, 19, 104471]⟩,
    ⟨104471, 11, [2, 5, 31, 337]⟩,
    ⟨126241, 7, [2, 2, 2, 2, 2, 3, 5, 263]⟩,
    ⟨622491383, 5, [2, 311245691]⟩,
    ⟨311245691, 2, [2, 5, 7, 17, 29, 29, 311]⟩,
    ⟨187019741, 2, [2, 2, 5, 9350987]⟩,
    ⟨9350987, 2, [2, 17, 229, 1201]⟩,
    ⟨1201, 11, [2, 2, 2, 2, 3, 5, 5]⟩,
    ⟨38189, 2, [2, 2, 9547]⟩,
    ⟨9547, 2, [2, 3, 37, 43]⟩,
    ⟨3407, 5, [2, 13, 131]⟩,
    ⟨115792089210356248762697446949407573530086143415290314195533631308867097853951, 6, [2, 3, 5, 5, 17, 257, 641,
      1531, 65537, 490463, 6700417, 835945042244614951780389953367877943453916927241]⟩,
    ⟨835945042244614951780389953367877943453916927241, 11, [2, 2, 2, 3, 3, 3, 5,
      774023187263532362759620327192479577272145303]⟩,
    ⟨774023187263532362759620327192479577272145303, 3, [2, 3, 3, 2411, 34282281433, 11290956913871,
      46076956964474543]⟩,
    ⟨46076956964474543, 5, [2, 23, 18169, 78283, 704251]⟩,
    ⟨704251, 2, [2, 3, 3, 5, 5, 5, 313]⟩,
    ⟨78283, 3, [2, 3, 3, 4349]⟩,
    ⟨4349, 2, [2, 2, 1087]⟩,
    ⟨1087, 3, [2, 3, 181]⟩,
    ⟨18169, 11, [2, 2, 2, 3, 757]⟩,
    ⟨11290956913871, 13, [2, 5, 17, 66417393611]⟩,
    ⟨66417393611, 6, [2, 5, 53, 173, 197, 3677]⟩,
    ⟨3677, 2, [2, 2, 919]⟩,
    ⟨34282281433, 17, [2, 2, 2, 3, 7, 204061199]⟩,
    ⟨204061199, 11, [2, 11, 23, 107, 3769]⟩,
    ⟨3769, 7, [2, 2, 2, 3, 157]⟩,
    ⟨2411, 6, [2, 5, 241]⟩,
    ⟨6700417, 5, [2, 2, 2, 2, 2, 2, 2, 3, 17449]⟩,
    ⟨17449, 14, [2, 2, 2, 3, 727]⟩,
    ⟨490463, 14, [2, 7, 53, 661]⟩,
    ⟨65537, 3, [2, 2, 2, 2, 2, 2, 2, 2, 2, 2, 2, 2, 2, 2, 2, 2]⟩,
    ⟨1531, 2, [2, 3, 3, 5, 17]⟩]

theorem primes_prime : ∀ q ∈ primes.map (·.p), q.Prime :=
  Lucas.prime_of_check (by decide +kernel : Lucas.check 256 primes = true)

theorem p256N_val : val p256N = n := by decide

theorem n_prime : n.Prime := primes_prime n (by decide)

theorem p_prime : p.Prime := by
  have hp : p ∈ primes.map (·.p) := by decide
  exact primes_prime p hp

instance : Fact p.Prime := ⟨p_prime⟩

instance : Fact n.Prime := ⟨n_prime⟩

end Lebirun.Tls.P256
