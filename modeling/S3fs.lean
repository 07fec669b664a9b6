import S3fs.FdPage
import S3fs.Compress
import S3fs.Unloaded
import S3fs.Resize
import S3fs.Multipart
import S3fs.Stats
import S3fs.Operations
import S3fs.Sparse
import S3fs.ThreadPool
import S3fs.CurlUtil
import S3fs.FileState
import S3fs.Url
import S3fs.Progress
import S3fs.Lifecycle
