import Musl.Malloc.PageCacheRuns
import Musl.Malloc.Recallocarray
import Musl.Multibyte.Mbsrtowcs
import Musl.Ldso.Dlopen
import Musl.Misc.Wordexp
import Musl.Network.DnsParse
import Musl.Network.ResRandom
import Musl.Locale.Iconv
import Musl.Network.InetNet
import Musl.Network.ResMsend
import Musl.Stdio.Funopen
import Musl.Bsd.Imsg
import Musl.Crypt.Sha2
import Musl.Bsd.Splice
import Musl.Env.Environ
import Musl.Ldso.SymbolLookup
import Musl.Search.Hsearch
import Musl.Search.Tsearch
import Musl.Stdlib.Arc4random
import Musl.Stdlib.Qsort
import Musl.Misc.Realpath
import Musl.Network.AsrUnpack
import Musl.Network.DnExpand
import Musl.Time.Strptime
import Musl.Time.Transitions
import Musl.Time.TzRule
import Musl.Ldso.Relr
import Musl.Malloc.Calloc
import Musl.Misc.BerLength
import Musl.Misc.BerOid
import Musl.Stdio.Output
import Musl.String.Strverscmp
import Musl.Malloc.AlignedAlloc
