import Xv6.Kern.JoinTheorems
import Xv6.Fs.ReserveTheorems
import Xv6.Kern.ArgTheorems
import Xv6.Sync.Sleeplock
import Xv6.Sync.PipeTheorems
import Xv6.Kern.KillTheorems
import Xv6.Kern.FamilyTheorems
import Xv6.Kern.FileTheorems
import Xv6.Fs.BioTheorems
import Xv6.Fs.Blist
import Xv6.Fs.IcacheTheorems
import Xv6.Fs.FilewriteTheorems
import Xv6.Fs.LoggedTheorems
import Xv6.Fs.MkfsTheorems
import Xv6.Fs.PathTheorems
import Xv6.Sync.ConsoleTheorems
import Xv6.User.ShTheorems
import Xv6.User.Grep
import Xv6.Kern.ElfTheorems
import Xv6.Kern.SemCalls
import Xv6.Kern.StartTheorems
import Xv6.Mem.CopyPages
import Xv6.User.RoundRobin
import Xv6.User.Sbrk
import Xv6.User.Ulib
import Xv6.Fs.Bitmap
